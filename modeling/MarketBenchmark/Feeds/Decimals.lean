import MarketBenchmark.Model
import MarketBenchmark.Foundation.Labels

/-!
# Canonical decimals and price levels

Prices and sizes arrive as texts and are compared as numbers.  What the
collectors need of the decimal library is a parameter: which number a text
denotes, and the normalised text of a number.  A side of a book is accepted
exactly when its texts denote positive quotes in strict price order.
-/

namespace MarketBenchmark.Feeds

/-- `Decimal::from_str`, as the number that the text denotes, and `normalize().to_string()`, which
depends on the number alone. -/
structure Decimals where
  fromStr : String → Option ℚ
  toText : ℚ → String

/-- The text of a number that was read denotes the number again. -/
def Decimals.PrintsBack (decimals : Decimals) : Prop :=
  ∀ text value, decimals.fromStr text = some value →
    decimals.fromStr (decimals.toText value) = some value

variable (decimals : Decimals)

/-- `canonical_positive_decimal`. -/
def canonicalPositiveDecimal (value : String) : Option String :=
  (decimals.fromStr value).bind fun value =>
    if 0 < value then some (decimals.toText value) else none

/-- `WsLevel` and `L2Level`: one price level as it is sent. -/
structure Level where
  px : String
  sz : String
  n : Nat
  deriving DecidableEq

/-- `canonical_level`. -/
def canonicalLevel (level : Level) : Option (LevelKey × ℚ) :=
  match decimals.fromStr level.px, decimals.fromStr level.sz with
  | some px, some sz =>
      if px ≤ 0 ∨ sz ≤ 0 ∨ level.n = 0 then none
      else some ({ px := decimals.toText px, sz := decimals.toText sz, n := level.n }, px)
  | _, _ => none

/-- The price does not continue the side. -/
def OutOfOrder (descending : Bool) (previous price : ℚ) : Prop :=
  descending = true ∧ previous ≤ price ∨ descending = false ∧ price ≤ previous

instance (descending : Bool) (previous price : ℚ) :
    Decidable (OutOfOrder descending previous price) :=
  inferInstanceAs (Decidable (_ ∨ _))

/-- The loop of `canonical_side`, after a level with the previous price. -/
def canonicalSideAfter (descending : Bool) : Option ℚ → List Level → Option (List LevelKey)
  | _, [] => some []
  | previous, level :: rest =>
      match canonicalLevel decimals level with
      | none => none
      | some (key, price) =>
          if ∃ before ∈ previous, OutOfOrder descending before price then none
          else (canonicalSideAfter descending (some price) rest).map fun keys => key :: keys

/-- `canonical_side`. -/
def canonicalSide (levels : List Level) (descending : Bool) : Option (List LevelKey) :=
  canonicalSideAfter decimals descending none levels

/-- `book_is_crossed`. -/
def bookIsCrossed (bid ask : Option LevelKey) : Bool :=
  match bid, ask with
  | some bid, some ask =>
      match decimals.fromStr bid.px with
      | none => true
      | some bid =>
          match decimals.fromStr ask.px with
          | none => true
          | some ask => ask ≤ bid
  | _, _ => false

/-! ## Quotes -/

/-- A price level as numbers. -/
structure Quote where
  px : ℚ
  sz : ℚ
  n : Nat
  px_pos : 0 < px
  sz_pos : 0 < sz
  n_pos : 0 < n

namespace Quote

theorem ext_iff {first second : Quote} :
    first = second ↔ first.px = second.px ∧ first.sz = second.sz ∧ first.n = second.n := by
  cases first
  cases second
  simp

/-- The canonical key of a quote. -/
def key (quote : Quote) : LevelKey where
  px := decimals.toText quote.px
  sz := decimals.toText quote.sz
  n := quote.n

end Quote

/-- The level is a way to write the quote. -/
structure Level.Denotes (level : Level) (quote : Quote) : Prop where
  px : decimals.fromStr level.px = some quote.px
  sz : decimals.fromStr level.sz = some quote.sz
  n : level.n = quote.n

/-- The levels denote the quotes, one by one. -/
def Denote (levels : List Level) (quotes : List Quote) : Prop :=
  List.Forall₂ (Level.Denotes decimals) levels quotes

variable {decimals}

namespace Level.Denotes

variable {level : Level} {quote : Quote}

/-- A level denotes one quote. -/
theorem unique {other : Quote} (denotes : level.Denotes decimals quote)
    (again : level.Denotes decimals other) : quote = other := by
  apply Quote.ext_iff.mpr
  constructor
  · exact Option.some.inj (denotes.px.symm.trans again.px)
  · constructor
    · exact Option.some.inj (denotes.sz.symm.trans again.sz)
    · exact denotes.n.symm.trans again.n

theorem canonicalLevel (denotes : level.Denotes decimals quote) :
    canonicalLevel decimals level = some (quote.key decimals, quote.px) := by
  have positive : ¬(quote.px ≤ 0 ∨ quote.sz ≤ 0 ∨ quote.n = 0) := by
    have px := quote.px_pos
    have sz := quote.sz_pos
    have n := quote.n_pos
    simp only [not_or, not_le]
    exact ⟨px, sz, n.ne'⟩
  simp only [Feeds.canonicalLevel, denotes.px, denotes.sz, denotes.n, if_neg positive]
  rfl

end Level.Denotes

/-- A level is accepted exactly when it denotes a quote. -/
theorem canonicalLevel_eq_some {level : Level} {key : LevelKey} {price : ℚ} :
    canonicalLevel decimals level = some (key, price) ↔
      ∃ quote : Quote, level.Denotes decimals quote ∧ key = quote.key decimals ∧
        price = quote.px := by
  constructor
  · intro accepted
    cases px : decimals.fromStr level.px with
    | none => simp [canonicalLevel, px] at accepted
    | some pxValue =>
        cases sz : decimals.fromStr level.sz with
        | none => simp [canonicalLevel, px, sz] at accepted
        | some szValue =>
            simp only [canonicalLevel, px, sz] at accepted
            split at accepted
            · cases accepted
            next positive =>
              simp only [not_or, not_le] at positive
              obtain ⟨pxPos, szPos, nPos⟩ := positive
              obtain ⟨rfl, rfl⟩ := Prod.mk.inj (Option.some.inj accepted)
              exact ⟨⟨pxValue, szValue, level.n, pxPos, szPos, Nat.pos_of_ne_zero nPos⟩,
                ⟨px, sz, rfl⟩, rfl, rfl⟩
  · rintro ⟨quote, denotes, rfl, rfl⟩
    exact denotes.canonicalLevel

/-! ## Sides -/

/-- The earlier price is better: higher on the side of the bids, lower on the side of the asks. -/
def Better (descending : Bool) (earlier later : Quote) : Prop :=
  ¬OutOfOrder descending earlier.px later.px

theorem better_true {earlier later : Quote} :
    Better true earlier later ↔ later.px < earlier.px := by
  simp [Better, OutOfOrder]

theorem better_false {earlier later : Quote} :
    Better false earlier later ↔ earlier.px < later.px := by
  simp [Better, OutOfOrder]

theorem Better.trans {descending : Bool} {first second third : Quote}
    (before : Better descending first second) (after : Better descending second third) :
    Better descending first third := by
  cases descending with
  | true =>
      rw [better_true] at before after ⊢
      exact after.trans before
  | false =>
      rw [better_false] at before after ⊢
      exact before.trans after

instance (descending : Bool) : IsTrans Quote (Better descending) := ⟨fun _ _ _ => Better.trans⟩

/-- A quote continues the side after the previous one, if there is one. -/
def Continues (descending : Bool) (previous : Option Quote) (quotes : List Quote) : Prop :=
  (previous.toList ++ quotes).IsChain (Better descending)

theorem continues_nil {descending : Bool} {previous : Option Quote} :
    Continues descending previous [] := by
  cases previous <;> simp [Continues]

theorem continues_cons {descending : Bool} {previous : Option Quote} {quote : Quote}
    {rest : List Quote} :
    Continues descending previous (quote :: rest) ↔
      (∀ before ∈ previous, Better descending before quote) ∧
        Continues descending (some quote) rest := by
  cases previous <;> simp [Continues]

/-- The loop accepts a side whose quotes are in strict price order. -/
theorem canonicalSideAfter_eq_some {descending : Bool} {previous : Option Quote}
    {levels : List Level} {keys : List LevelKey} :
    canonicalSideAfter decimals descending (previous.map Quote.px) levels = some keys ↔
      ∃ quotes, Denote decimals levels quotes ∧ Continues descending previous quotes ∧
        keys = quotes.map (Quote.key decimals) := by
  induction levels generalizing previous keys with
  | nil =>
      constructor
      · intro accepted
        cases accepted
        exact ⟨[], List.Forall₂.nil, continues_nil, rfl⟩
      · rintro ⟨quotes, denote, _, rfl⟩
        cases denote
        rfl
  | cons level rest ih =>
      constructor
      · intro accepted
        cases read : canonicalLevel decimals level with
        | none => simp [canonicalSideAfter, read] at accepted
        | some result =>
            obtain ⟨key, price⟩ := result
            obtain ⟨quote, denotes, rfl, rfl⟩ := canonicalLevel_eq_some.mp read
            simp only [canonicalSideAfter, read] at accepted
            split at accepted
            · cases accepted
            next inOrder =>
              obtain ⟨others, followed, rfl⟩ := Option.map_eq_some_iff.mp accepted
              have fromQuote : canonicalSideAfter decimals descending
                  ((some quote).map Quote.px) rest = some others := followed
              obtain ⟨quotes, denote, continues, rfl⟩ := ih.mp fromQuote
              refine ⟨quote :: quotes, List.Forall₂.cons denotes denote, ?_, rfl⟩
              refine continues_cons.mpr ⟨fun before isBefore outOfOrder => inOrder ?_, continues⟩
              exact ⟨before.px, Option.mem_map_of_mem _ isBefore, outOfOrder⟩
      · rintro ⟨quotes, denote, continues, rfl⟩
        cases denote with
        | @cons _ quote _ others denotes denote =>
            obtain ⟨better, continues⟩ := continues_cons.mp continues
            have followed : canonicalSideAfter decimals descending (some quote.px) rest =
                some (others.map (Quote.key decimals)) := ih.mpr ⟨others, denote, continues, rfl⟩
            simp only [canonicalSideAfter, denotes.canonicalLevel]
            rw [if_neg, followed]
            · rfl
            · rintro ⟨price, isPrice, outOfOrder⟩
              obtain ⟨before, isBefore, rfl⟩ := Option.mem_map.mp isPrice
              exact better before isBefore outOfOrder

/-- A side is accepted exactly when it denotes quotes in strict price order. -/
theorem canonicalSide_eq_some {levels : List Level} {descending : Bool} {keys : List LevelKey} :
    canonicalSide decimals levels descending = some keys ↔
      ∃ quotes, Denote decimals levels quotes ∧ quotes.Pairwise (Better descending) ∧
        keys = quotes.map (Quote.key decimals) := by
  have fromStart : canonicalSide decimals levels descending =
      canonicalSideAfter decimals descending ((none : Option Quote).map Quote.px) levels := rfl
  rw [fromStart, canonicalSideAfter_eq_some]
  simp only [Continues, Option.toList_none, List.nil_append, List.isChain_iff_pairwise]

/-! ## Equal keys -/

/-- The levels are numerically equal, with equal order counts. -/
structure Level.Same (decimals : Decimals) (first second : Level) : Prop where
  px : decimals.fromStr first.px = decimals.fromStr second.px
  sz : decimals.fromStr first.sz = decimals.fromStr second.sz
  n : first.n = second.n

/-- Canonical texts tell numbers apart. -/
theorem Decimals.PrintsBack.toText_inj (prints : decimals.PrintsBack) {first second : String}
    {firstValue secondValue : ℚ} (firstRead : decimals.fromStr first = some firstValue)
    (secondRead : decimals.fromStr second = some secondValue)
    (same : decimals.toText firstValue = decimals.toText secondValue) :
    firstValue = secondValue := by
  have back := prints first firstValue firstRead
  rw [same, prints second secondValue secondRead] at back
  exact (Option.some.inj back).symm

/-- Two accepted levels have one key exactly when they are numerically equal. -/
theorem Level.Denotes.key_eq_iff (prints : decimals.PrintsBack) {first second : Level}
    {firstQuote secondQuote : Quote} (firstDenotes : first.Denotes decimals firstQuote)
    (secondDenotes : second.Denotes decimals secondQuote) :
    firstQuote.key decimals = secondQuote.key decimals ↔ first.Same decimals second := by
  constructor
  · intro same
    have px := prints.toText_inj firstDenotes.px secondDenotes.px (congrArg LevelKey.px same)
    have sz := prints.toText_inj firstDenotes.sz secondDenotes.sz (congrArg LevelKey.sz same)
    have n : firstQuote.n = secondQuote.n := congrArg LevelKey.n same
    constructor
    · rw [firstDenotes.px, secondDenotes.px, px]
    · rw [firstDenotes.sz, secondDenotes.sz, sz]
    · rw [firstDenotes.n, secondDenotes.n, n]
  · rintro ⟨px, sz, n⟩
    have same : first.Denotes decimals secondQuote :=
      ⟨px.trans secondDenotes.px, sz.trans secondDenotes.sz, n.trans secondDenotes.n⟩
    rw [firstDenotes.unique same]

theorem denote_keys_eq_iff (prints : decimals.PrintsBack) {first second : List Level}
    {firstQuotes secondQuotes : List Quote} (firstDenote : Denote decimals first firstQuotes)
    (secondDenote : Denote decimals second secondQuotes) :
    firstQuotes.map (Quote.key decimals) = secondQuotes.map (Quote.key decimals) ↔
      List.Forall₂ (Level.Same decimals) first second := by
  induction firstDenote generalizing second secondQuotes with
  | nil =>
      cases secondDenote with
      | nil => simp
      | cons denotes denote => simp
  | cons firstDenotes firstDenote ih =>
      cases secondDenote with
      | nil => simp
      | cons secondDenotes secondDenote =>
          rw [List.map_cons, List.map_cons, List.cons.injEq, List.forall₂_cons,
            firstDenotes.key_eq_iff prints secondDenotes, ih secondDenote]

/-! ## Crossing -/

theorem Level.Denotes.fromStr_key (prints : decimals.PrintsBack) {level : Level} {quote : Quote}
    (denotes : level.Denotes decimals quote) :
    decimals.fromStr (quote.key decimals).px = some quote.px :=
  prints level.px quote.px denotes.px

/-- The crossing test compares the prices, though it reads the canonical texts. -/
theorem bookIsCrossed_keys (prints : decimals.PrintsBack) {bid ask : Level}
    {bidQuote askQuote : Quote} (bidDenotes : bid.Denotes decimals bidQuote)
    (askDenotes : ask.Denotes decimals askQuote) :
    bookIsCrossed decimals (some (bidQuote.key decimals)) (some (askQuote.key decimals)) = false ↔
      bidQuote.px < askQuote.px := by
  simp [bookIsCrossed, bidDenotes.fromStr_key prints, askDenotes.fromStr_key prints]

/-! ## Whole numbers -/

open Foundation.Labels

/-- Decimals that are whole numbers, possibly written with zeros behind the point. -/
def wholeNumbers : Decimals where
  fromStr := fun text =>
    match splitOnce '.' text.toList with
    | none => (parseDecimal text.toList).map fun number : Nat => (number : ℚ)
    | some (whole, fraction) =>
        if fraction ≠ [] ∧ ∀ symbol ∈ fraction, symbol = '0' then
          (parseDecimal whole).map fun number : Nat => (number : ℚ)
        else none
  toText := fun value => String.ofList (Nat.toDigits 10 value.num.toNat)

theorem wholeNumbers_fromStr (number : Nat) :
    wholeNumbers.fromStr (toString number) = some (number : ℚ) := by
  have noPoint : splitOnce '.' (Nat.toDigits 10 number) = none :=
    if_neg (notMem_toDigits (by decide) number)
  simp [wholeNumbers, noPoint, parseDecimal_toDigits]

theorem wholeNumbers_fromStr_zero (number : Nat) :
    wholeNumbers.fromStr (toString number ++ ".0") = some (number : ℚ) := by
  have point : splitOnce '.' (Nat.toDigits 10 number ++ ['.', '0']) =
      some (Nat.toDigits 10 number, ['0']) :=
    splitOnce_append (notMem_toDigits (by decide) number)
  simp [wholeNumbers, point, parseDecimal_toDigits]

theorem wholeNumbers_printsBack : wholeNumbers.PrintsBack := by
  intro text value read
  have whole : ∃ number : Nat, value = number := by
    simp only [wholeNumbers] at read
    split at read
    · obtain ⟨number, _, rfl⟩ := Option.map_eq_some_iff.mp read
      exact ⟨number, rfl⟩
    · split at read
      · obtain ⟨number, _, rfl⟩ := Option.map_eq_some_iff.mp read
        exact ⟨number, rfl⟩
      · cases read
  obtain ⟨number, rfl⟩ := whole
  have printed : wholeNumbers.toText number = toString number := by
    apply String.toList_injective
    simp [wholeNumbers]
  rw [printed]
  exact wholeNumbers_fromStr number

end MarketBenchmark.Feeds
