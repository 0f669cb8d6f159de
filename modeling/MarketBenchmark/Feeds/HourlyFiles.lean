import MarketBenchmark.Outbox.Names
import MarketBenchmark.Foundation.Lines

/-!
# The hourly files of a node

A node writes its fills to one file an hour, under a directory for each day.
The files are in the order of their names: by day, then by hour as a number.
-/

namespace MarketBenchmark.Feeds

open Foundation.Labels Foundation.Lines

/-- `<root>/<date>/<hour>`. -/
structure HourlyPath where
  day : Outbox.Name
  hour : Outbox.Name
  deriving DecidableEq

namespace HourlyPath

/-- `str::parse::<u32>`. -/
def parseU32 (text : List Char) : Option Nat :=
  (parseDecimal (Outbox.withoutPlus text)).filter fun value => value < 2 ^ 32

/-- `hour_key`: hours are ordered as numbers, and by name where they are none. -/
def hourKey (path : HourlyPath) : Nat ×ₗ Outbox.Name :=
  toLex ((parseU32 path.hour).getD 0, path.hour)

/-- The path of an earlier hour. -/
def Before (first second : HourlyPath) : Prop :=
  first.day < second.day ∨ first.day = second.day ∧ first.hourKey < second.hourKey

instance (first second : HourlyPath) : Decidable (Before first second) :=
  inferInstanceAs (Decidable (_ ∨ _))

theorem Before.trans {first second third : HourlyPath} (one : Before first second)
    (two : Before second third) : Before first third := by
  rcases one with day | ⟨sameDay, hour⟩
  · rcases two with later | ⟨same, _⟩
    · exact Or.inl (lt_trans day later)
    · exact Or.inl (same ▸ day)
  · rcases two with later | ⟨same, later⟩
    · exact Or.inl (sameDay ▸ later)
    · exact Or.inr ⟨sameDay.trans same, lt_trans hour later⟩

theorem Before.irrefl (path : HourlyPath) : ¬Before path path := by
  rintro (day | ⟨_, hour⟩)
  · exact lt_irrefl _ day
  · exact lt_irrefl _ hour

theorem Before.asymm {first second : HourlyPath} (one : Before first second) :
    ¬Before second first :=
  fun two => Before.irrefl first (one.trans two)

theorem parseU32_toDigits {number : Nat} (fits : number < 2 ^ 32) :
    parseU32 (Nat.toDigits 10 number) = some number := by
  have unsigned : Outbox.withoutPlus (Nat.toDigits 10 number) = Nat.toDigits 10 number := by
    unfold Outbox.withoutPlus
    split
    next rest sign =>
      have member : '+' ∈ Nat.toDigits 10 number := by
        rw [sign]
        exact List.mem_cons_self
      exact absurd member (notMem_toDigits rfl number)
    · rfl
  rw [parseU32, unsigned, parseDecimal_toDigits, Option.filter_some,
    if_pos (decide_eq_true fits)]

/-- Within a day the hours are in order although their names are not padded. -/
theorem before_of_hour_lt (day : Outbox.Name) {first second : Nat} (earlier : first < second)
    (fits : second < 2 ^ 32) :
    Before { day := day, hour := Nat.toDigits 10 first }
      { day := day, hour := Nat.toDigits 10 second } := by
  refine Or.inr ⟨rfl, Prod.Lex.toLex_lt_toLex.mpr (Or.inl ?_)⟩
  rw [parseU32_toDigits fits, parseU32_toDigits (Nat.lt_trans earlier fits)]
  exact earlier

end HourlyPath

open HourlyPath

/-- `newest_hourly_file`, from the paths of the files that the directories list. -/
def newestHourlyFile (paths : List HourlyPath) : Option HourlyPath :=
  let days := (paths.map HourlyPath.day).dedup.mergeSort fun first second =>
    decide (first ≤ second)
  days.reverse.findSome? fun day =>
    ((paths.filter fun path => path.day = day).mergeSort fun first second =>
      decide (first.hourKey ≤ second.hourKey)).getLast?

/-- The last element in sorted order of a list with a greatest element. -/
theorem getLast?_mergeSort {Item Key : Type} [LinearOrder Key] (key : Item → Key)
    {items : List Item} {last : Item} (member : last ∈ items)
    (greatest : ∀ item ∈ items, item = last ∨ key item < key last) :
    (items.mergeSort fun first second => decide (key first ≤ key second)).getLast? =
      some last := by
  have ordered : ∀ first second third : Item, decide (key first ≤ key second) = true →
      decide (key second ≤ key third) = true → decide (key first ≤ key third) = true :=
    fun first second third one two =>
      decide_eq_true (le_trans (of_decide_eq_true one) (of_decide_eq_true two))
  have total : ∀ first second : Item,
      (decide (key first ≤ key second) || decide (key second ≤ key first)) = true := by
    intro first second
    rcases le_total (key first) (key second) with le | le
    · rw [decide_eq_true le, Bool.true_or]
    · rw [decide_eq_true le, Bool.or_true]
  have sorted := List.pairwise_mergeSort ordered total items
  have inSorted : last ∈ items.mergeSort fun first second => decide (key first ≤ key second) :=
    List.mem_mergeSort.mpr member
  rcases List.eq_nil_or_concat
      (items.mergeSort fun first second => decide (key first ≤ key second)) with
    empty | ⟨front, final, concat⟩
  · rw [empty] at inSorted
    cases inSorted
  · rw [concat, List.concat_eq_append] at sorted inSorted ⊢
    rw [List.getLast?_concat]
    rcases List.mem_append.mp inSorted with inFront | isFinal
    · have le := of_decide_eq_true
        ((List.pairwise_append.mp sorted).2.2 last inFront final (List.mem_singleton_self final))
      have listed : final ∈ items := by
        have inSorted : final ∈ items.mergeSort fun first second =>
            decide (key first ≤ key second) := by
          rw [concat, List.concat_eq_append]
          exact List.mem_append_right front (List.mem_singleton_self final)
        exact List.mem_mergeSort.mp inSorted
      rcases greatest final listed with same | less
      · rw [same]
      · exact absurd le (not_le_of_gt less)
    · rw [List.mem_singleton.mp isFinal]

/-- The newest file is the one whose path is after all others. -/
theorem newestHourlyFile_eq {paths : List HourlyPath} {newest : HourlyPath}
    (member : newest ∈ paths) (latest : ∀ path ∈ paths, path = newest ∨ Before path newest) :
    newestHourlyFile paths = some newest := by
  have lastDay := getLast?_mergeSort (fun day : Outbox.Name => day)
    (List.mem_dedup.mpr (List.mem_map_of_mem (f := HourlyPath.day) member)) fun day isDay => by
      obtain ⟨path, isPath, rfl⟩ := List.mem_map.mp (List.mem_dedup.mp isDay)
      rcases latest path isPath with rfl | earlier | ⟨same, _⟩
      · exact Or.inl rfl
      · exact Or.inr earlier
      · exact Or.inl same
  have lastHour := getLast?_mergeSort HourlyPath.hourKey
    (List.mem_filter.mpr ⟨member, decide_eq_true rfl⟩ :
      newest ∈ paths.filter fun path => path.day = newest.day) fun path isPath => by
      obtain ⟨listed, sameDay⟩ := List.mem_filter.mp isPath
      rcases latest path listed with same | earlier | ⟨_, earlier⟩
      · exact Or.inl same
      · rw [of_decide_eq_true sameDay] at earlier
        exact absurd earlier (lt_irrefl _)
      · exact Or.inr earlier
  rw [← List.head?_reverse, List.head?_eq_some_iff] at lastDay
  obtain ⟨earlier, days⟩ := lastDay
  unfold newestHourlyFile
  simp only [days, List.findSome?_cons, lastHour]

end MarketBenchmark.Feeds
