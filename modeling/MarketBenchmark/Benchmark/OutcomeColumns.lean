import MarketBenchmark.Benchmark.Outcomes
import MarketBenchmark.Foundation.Tallies

/-!
# Outcome columns

A row publishes the strict and the tied wins of its interval per company: the
two paths of one company share a column, and a process dials at most one of
them.  The columns are counted provider by provider; here they are read cohort
by cohort, from which active providers attain the least latency.
-/

namespace MarketBenchmark

open Foundation.HashMaps
open Foundation.Runs
open Foundation.Tallies

/-! ## Columns and families -/

def quicknodeFamily : List Provider := [.quickNodeGrpc, .quickNodePeeringTcp]
def hydromancerFamily : List Provider := [.hydromancerWs, .hydromancerPeeringTcp]

def providerFamilyTotal (counts : Provider → Nat) (family : List Provider) : Nat :=
  (family.map counts).sum

/-- The company columns of a row. -/
inductive OutcomeColumn where
  | foundation
  | hydromancer
  | quicknode
  | quicknodeVpc
  deriving DecidableEq, Repr

namespace OutcomeColumn

def all : List OutcomeColumn := [foundation, hydromancer, quicknode, quicknodeVpc]

/-- The providers that count toward a column. -/
def family : OutcomeColumn → List Provider
  | foundation => [.foundationWs]
  | hydromancer => hydromancerFamily
  | quicknode => quicknodeFamily
  | quicknodeVpc => [.quickNodeVpc]

/-- The column of a provider. -/
def ofProvider : Provider → OutcomeColumn
  | .foundationWs => foundation
  | .hydromancerWs | .hydromancerPeeringTcp => hydromancer
  | .quickNodeGrpc | .quickNodePeeringTcp => quicknode
  | .quickNodeVpc => quicknodeVpc

theorem mem_family_iff {column : OutcomeColumn} {provider : Provider} :
    provider ∈ column.family ↔ ofProvider provider = column := by
  cases column <;> cases provider <;> decide

theorem family_nodup (column : OutcomeColumn) : column.family.Nodup := by
  cases column <;> decide

theorem mem_all (column : OutcomeColumn) : column ∈ all := by
  cases column <;> decide

end OutcomeColumn

/-- The columns of a process that compares providers have one active provider each. -/
theorem BenchmarkConfig.ofProvider_inj (config : BenchmarkConfig) :
    config.hasProviderComparison = true → ∀ first ∈ config.providers,
      ∀ second ∈ config.providers,
        OutcomeColumn.ofProvider first = OutcomeColumn.ofProvider second → first = second := by
  unfold providers hasProviderComparison
  cases config.dataset <;> cases config.vpcLocal <;> cases config.peeringMode <;> decide

/-! ## The winners of a cohort -/

namespace CommittedCohort

/-- An active provider with the least latency among the active providers. -/
def Attains (cohort : CommittedCohort) (providers : List Provider) (provider : Provider) : Prop :=
  provider ∈ providers ∧ ∀ other ∈ providers, cohort.latencyMs provider ≤ cohort.latencyMs other

/-- An active provider that alone has the least latency among the active providers. -/
def StrictlyFastest (cohort : CommittedCohort) (providers : List Provider)
    (provider : Provider) : Prop :=
  provider ∈ providers ∧ ∀ other ∈ providers, other ≠ provider →
    cohort.latencyMs provider < cohort.latencyMs other

/-- Several active providers share the least latency. -/
def Tied (cohort : CommittedCohort) (providers : List Provider) : Prop :=
  ∃ first ∈ providers, ∃ second ∈ providers, first ≠ second ∧
    cohort.Attains providers first ∧ cohort.Attains providers second

/-- The cohort is a strict win of the column. -/
def AddsStrict (cohort : CommittedCohort) (providers : List Provider)
    (column : OutcomeColumn) : Prop :=
  ∃ provider ∈ column.family, cohort.StrictlyFastest providers provider

/-- The cohort is a tied win of the column. -/
def AddsTied (cohort : CommittedCohort) (providers : List Provider)
    (column : OutcomeColumn) : Prop :=
  cohort.Tied providers ∧ ∃ provider ∈ column.family, cohort.Attains providers provider

instance (cohort : CommittedCohort) (providers : List Provider) (provider : Provider) :
    Decidable (cohort.Attains providers provider) :=
  inferInstanceAs (Decidable (_ ∧ _))

instance (cohort : CommittedCohort) (providers : List Provider) (provider : Provider) :
    Decidable (cohort.StrictlyFastest providers provider) :=
  inferInstanceAs (Decidable (_ ∧ _))

instance (cohort : CommittedCohort) (providers : List Provider) :
    Decidable (cohort.Tied providers) :=
  inferInstanceAs (Decidable (∃ _ ∈ _, ∃ _ ∈ _, _))

instance (cohort : CommittedCohort) (providers : List Provider) (column : OutcomeColumn) :
    Decidable (cohort.AddsStrict providers column) :=
  inferInstanceAs (Decidable (∃ _ ∈ _, _))

instance (cohort : CommittedCohort) (providers : List Provider) (column : OutcomeColumn) :
    Decidable (cohort.AddsTied providers column) :=
  inferInstanceAs (Decidable (_ ∧ ∃ _ ∈ _, _))

section Winners

variable {cohort : CommittedCohort} {providers : List Provider} {provider : Provider}

/-- The providers that the code collects are those that attain the least latency. -/
theorem mem_fastestProviders :
    provider ∈ cohort.fastestProviders providers ↔ cohort.Attains providers provider := by
  have least : ∀ active ∈ providers, ∃ low,
      (providers.map cohort.latencyMs).min? = some low ∧
        low ∈ providers.map cohort.latencyMs ∧
        ∀ other ∈ providers, low ≤ cohort.latencyMs other := by
    intro active isActive
    obtain ⟨low, found⟩ := Option.isSome_iff_exists.mp
      (List.isSome_min?_of_mem (List.mem_map_of_mem (f := cohort.latencyMs) isActive))
    obtain ⟨member, below⟩ := List.min?_eq_some_iff.mp found
    exact ⟨low, found, member, fun other isOther => below _ (List.mem_map_of_mem isOther)⟩
  unfold fastestProviders Attains
  rw [List.mem_filter]
  constructor
  · rintro ⟨isActive, isLeast⟩
    obtain ⟨low, found, _, below⟩ := least provider isActive
    refine ⟨isActive, fun other isOther => ?_⟩
    have same := of_decide_eq_true isLeast
    unfold fastest at same
    rw [found, Option.getD_some] at same
    rw [same]
    exact below other isOther
  · rintro ⟨isActive, attains⟩
    obtain ⟨low, found, member, below⟩ := least provider isActive
    refine ⟨isActive, decide_eq_true ?_⟩
    obtain ⟨other, isOther, same⟩ := List.mem_map.mp member
    unfold fastest
    rw [found, Option.getD_some]
    exact Nat.le_antisymm (same ▸ attains other isOther) (below provider isActive)

theorem StrictlyFastest.attains (strict : cohort.StrictlyFastest providers provider) :
    cohort.Attains providers provider := by
  refine ⟨strict.1, fun other isOther => ?_⟩
  by_cases same : other = provider
  · rw [same]
  · exact Nat.le_of_lt (strict.2 other isOther same)

/-- Whoever attains the least latency beside a strict winner is that winner. -/
theorem StrictlyFastest.eq_of_attains (strict : cohort.StrictlyFastest providers provider)
    {other : Provider} (attains : cohort.Attains providers other) : other = provider := by
  by_contra different
  exact Nat.not_le.mpr (strict.2 other attains.1 different) (attains.2 provider strict.1)

theorem Tied.not_strictlyFastest (tied : cohort.Tied providers) (provider : Provider) :
    ¬cohort.StrictlyFastest providers provider := by
  rintro strict
  obtain ⟨first, _, second, _, different, firstAttains, secondAttains⟩ := tied
  exact different ((strict.eq_of_attains firstAttains).trans
    (strict.eq_of_attains secondAttains).symm)

/-- The code sees a single fastest provider exactly when one is strictly fastest. -/
theorem fastestProviders_length_eq_one_iff (distinct : providers.Nodup) :
    (cohort.fastestProviders providers).length = 1 ↔
      ∃ provider, cohort.StrictlyFastest providers provider := by
  constructor
  · intro single
    obtain ⟨provider, only⟩ := List.length_eq_one_iff.mp single
    have attains : cohort.Attains providers provider := by
      rw [← mem_fastestProviders, only]
      exact List.mem_singleton_self provider
    refine ⟨provider, attains.1, fun other isOther different => ?_⟩
    refine Nat.lt_of_le_of_ne (attains.2 other isOther) fun level => different ?_
    have alsoAttains : cohort.Attains providers other :=
      ⟨isOther, fun third isThird => level ▸ attains.2 third isThird⟩
    rw [← mem_fastestProviders, only] at alsoAttains
    exact List.mem_singleton.mp alsoAttains
  · rintro ⟨provider, strict⟩
    have distinctFastest : (cohort.fastestProviders providers).Nodup := distinct.filter _
    have only : (cohort.fastestProviders providers).Perm [provider] := by
      refine (List.perm_ext_iff_of_nodup distinctFastest (List.nodup_singleton provider)).mpr
        fun other => ?_
      rw [mem_fastestProviders, List.mem_singleton]
      refine ⟨strict.eq_of_attains, fun same => ?_⟩
      rw [same]
      exact strict.attains
    exact only.length_eq

/-- A cohort without a strict winner is tied. -/
theorem tied_iff (inhabited : providers ≠ []) :
    cohort.Tied providers ↔ ∀ provider, ¬cohort.StrictlyFastest providers provider := by
  refine ⟨Tied.not_strictlyFastest, fun noWinner => ?_⟩
  have active : providers.argmin cohort.latencyMs ≠ none :=
    fun empty => inhabited (List.argmin_eq_none.mp empty)
  obtain ⟨first, least⟩ := Option.ne_none_iff_exists'.mp active
  obtain ⟨isFirst, below, _⟩ := List.mem_argmin_iff.mp least
  have firstAttains : cohort.Attains providers first := ⟨isFirst, below⟩
  by_contra untied
  refine noWinner first ⟨isFirst, fun other isOther different => ?_⟩
  refine Nat.lt_of_le_of_ne (below other isOther) fun level => untied ?_
  exact ⟨first, isFirst, other, isOther, Ne.symm different, firstAttains, isOther,
    fun third isThird => level ▸ below third isThird⟩

end Winners

end CommittedCohort

/-! ## Counting the cohorts of an interval -/

section Counting

variable {providers : List Provider}

/-- A quantity that each cohort of a kind advances by one counts that kind. -/
theorem foldl_count_eq (quantity : OutcomeCounts → Nat) (kind : CommittedCohort → Bool)
    (one : ∀ (counts : OutcomeCounts) (cohort : CommittedCohort),
      quantity (counts.count providers cohort) =
        quantity counts + if kind cohort = true then 1 else 0)
    (cohorts : List CommittedCohort) (counts : OutcomeCounts) :
    quantity (cohorts.foldl (OutcomeCounts.count providers) counts) =
      quantity counts + cohorts.countP kind := by
  induction cohorts generalizing counts with
  | nil => rfl
  | cons cohort rest ih =>
      rw [List.foldl_cons, ih, one, List.countP_cons]
      omega

theorem count_of_strict {cohort : CommittedCohort} (counts : OutcomeCounts)
    (single : (cohort.fastestProviders providers).length = 1) :
    counts.count providers cohort =
      { counts with
        complete := counts.complete + 1
        strictFastest := fun provider => counts.strictFastest provider +
          if provider ∈ cohort.fastestProviders providers then 1 else 0 } :=
  if_pos single

theorem count_of_tie {cohort : CommittedCohort} (counts : OutcomeCounts)
    (several : ¬(cohort.fastestProviders providers).length = 1) :
    counts.count providers cohort =
      { counts with
        complete := counts.complete + 1
        ties := counts.ties + 1
        tiedFastest := fun provider => counts.tiedFastest provider +
          if provider ∈ cohort.fastestProviders providers then 1 else 0 } :=
  if_neg several

theorem count_strictFastest (distinct : providers.Nodup) (counts : OutcomeCounts)
    (cohort : CommittedCohort) (provider : Provider) :
    (counts.count providers cohort).strictFastest provider = counts.strictFastest provider +
      if decide (cohort.StrictlyFastest providers provider) = true then 1 else 0 := by
  have single := cohort.fastestProviders_length_eq_one_iff distinct
  by_cases isSingle : (cohort.fastestProviders providers).length = 1
  · obtain ⟨winner, strict⟩ := single.mp isSingle
    have isWinner : provider ∈ cohort.fastestProviders providers ↔
        decide (cohort.StrictlyFastest providers provider) = true := by
      rw [CommittedCohort.mem_fastestProviders, decide_eq_true_iff]
      refine ⟨fun attains => ?_, CommittedCohort.StrictlyFastest.attains⟩
      rw [strict.eq_of_attains attains]
      exact strict
    rw [count_of_strict counts isSingle]
    exact congrArg (counts.strictFastest provider + ·) (if_congr isWinner rfl rfl)
  · have noWinner : ¬decide (cohort.StrictlyFastest providers provider) = true :=
      fun strict => isSingle (single.mpr ⟨provider, of_decide_eq_true strict⟩)
    rw [count_of_tie counts isSingle, if_neg noWinner]
    rfl

section Ties

variable (distinct : providers.Nodup) (inhabited : providers ≠ [])

include distinct inhabited

theorem several_iff (cohort : CommittedCohort) :
    (¬(cohort.fastestProviders providers).length = 1) ↔ cohort.Tied providers := by
  rw [cohort.fastestProviders_length_eq_one_iff distinct, cohort.tied_iff inhabited, not_exists]

theorem count_ties (counts : OutcomeCounts) (cohort : CommittedCohort) :
    (counts.count providers cohort).ties =
      counts.ties + if decide (cohort.Tied providers) = true then 1 else 0 := by
  have several := several_iff distinct inhabited cohort
  by_cases tied : cohort.Tied providers
  · rw [count_of_tie counts (several.mpr tied), if_pos (decide_eq_true tied)]
  · rw [count_of_strict counts (not_not.mp fun tie => tied (several.mp tie)),
      if_neg fun isTied => tied (of_decide_eq_true isTied)]
    rfl

theorem count_tiedFastest (counts : OutcomeCounts) (cohort : CommittedCohort)
    (provider : Provider) :
    (counts.count providers cohort).tiedFastest provider = counts.tiedFastest provider +
      if decide (cohort.Tied providers ∧ cohort.Attains providers provider) = true
        then 1 else 0 := by
  have several := several_iff distinct inhabited cohort
  by_cases tied : cohort.Tied providers
  · rw [count_of_tie counts (several.mpr tied)]
    refine congrArg (counts.tiedFastest provider + ·) (if_congr ?_ rfl rfl)
    rw [CommittedCohort.mem_fastestProviders, decide_eq_true_iff]
    exact (and_iff_right tied).symm
  · rw [count_of_strict counts (not_not.mp fun tie => tied (several.mp tie)),
      if_neg fun isTied => tied (of_decide_eq_true isTied).1]
    rfl

end Ties

end Counting

/-! ## Columns of cohorts -/

namespace CommittedCohort

variable {cohort : CommittedCohort} {providers : List Provider} {column other : OutcomeColumn}

/-- No cohort is a strict win of two columns. -/
theorem AddsStrict.unique (first : cohort.AddsStrict providers column)
    (second : cohort.AddsStrict providers other) : column = other := by
  obtain ⟨winner, isFamily, strict⟩ := first
  obtain ⟨same, isOther, alsoStrict⟩ := second
  rw [strict.eq_of_attains alsoStrict.attains] at isOther
  exact (OutcomeColumn.mem_family_iff.mp isFamily).symm.trans
    (OutcomeColumn.mem_family_iff.mp isOther)

theorem AddsStrict.not_tied (strict : cohort.AddsStrict providers column) :
    ¬cohort.Tied providers := by
  obtain ⟨winner, _, isStrict⟩ := strict
  exact fun tied => tied.not_strictlyFastest winner isStrict

/-- A cohort is a tie, or the strict win of a column. -/
theorem exists_addsStrict_iff (inhabited : providers ≠ []) :
    (∃ column ∈ OutcomeColumn.all, cohort.AddsStrict providers column) ↔
      ¬cohort.Tied providers := by
  constructor
  · rintro ⟨column, _, strict⟩
    exact strict.not_tied
  · intro untied
    rw [tied_iff inhabited, not_forall] at untied
    obtain ⟨winner, isStrict⟩ := untied
    exact ⟨OutcomeColumn.ofProvider winner, OutcomeColumn.mem_all _, winner,
      OutcomeColumn.mem_family_iff.mpr rfl, not_not.mp isStrict⟩

/-- A tie of a process that compares providers adds to two columns. -/
theorem Tied.two_columns {config : BenchmarkConfig}
    (compared : config.hasProviderComparison = true) (tied : cohort.Tied config.providers) :
    ∃ column other, column ≠ other ∧ cohort.AddsTied config.providers column ∧
      cohort.AddsTied config.providers other := by
  have isTied := tied
  obtain ⟨first, isFirst, second, isSecond, different, firstAttains, secondAttains⟩ := tied
  refine ⟨OutcomeColumn.ofProvider first, OutcomeColumn.ofProvider second, fun same => ?_,
    ⟨isTied, first, OutcomeColumn.mem_family_iff.mpr rfl, firstAttains⟩,
    ⟨isTied, second, OutcomeColumn.mem_family_iff.mpr rfl, secondAttains⟩⟩
  exact different (config.ofProvider_inj compared first isFirst second isSecond same)

/-- An active provider wins its column exactly when it is strictly fastest. -/
theorem addsStrict_ofProvider_iff {config : BenchmarkConfig}
    (compared : config.hasProviderComparison = true) {provider : Provider}
    (active : provider ∈ config.providers) :
    cohort.AddsStrict config.providers (OutcomeColumn.ofProvider provider) ↔
      cohort.StrictlyFastest config.providers provider := by
  constructor
  · rintro ⟨winner, isFamily, strict⟩
    have same := config.ofProvider_inj compared winner strict.1 provider active
      (OutcomeColumn.mem_family_iff.mp isFamily)
    rw [← same]
    exact strict
  · exact fun strict => ⟨provider, OutcomeColumn.mem_family_iff.mpr rfl, strict⟩

end CommittedCohort

/-! ## The columns of a row -/

namespace LatencyWindowEvent

def strictFastest (row : LatencyWindowEvent) : OutcomeColumn → Nat
  | .foundation => row.outcomeFoundationStrictFastestCount
  | .hydromancer => row.outcomeHydromancerStrictFastestCount
  | .quicknode => row.outcomeQuicknodeStrictFastestCount
  | .quicknodeVpc => row.outcomeQuicknodeVpcStrictFastestCount

def tiedFastest (row : LatencyWindowEvent) : OutcomeColumn → Nat
  | .foundation => row.outcomeFoundationTiedFastestCount
  | .hydromancer => row.outcomeHydromancerTiedFastestCount
  | .quicknode => row.outcomeQuicknodeTiedFastestCount
  | .quicknodeVpc => row.outcomeQuicknodeVpcTiedFastestCount

theorem sum_strictFastest (row : LatencyWindowEvent) :
    row.outcomeFoundationStrictFastestCount + row.outcomeHydromancerStrictFastestCount +
      row.outcomeQuicknodeStrictFastestCount + row.outcomeQuicknodeVpcStrictFastestCount =
        (OutcomeColumn.all.map row.strictFastest).sum := by
  simp only [OutcomeColumn.all, strictFastest, List.map_cons, List.map_nil, List.sum_cons,
    List.sum_nil, Nat.add_zero, Nat.add_assoc]

end LatencyWindowEvent

/-- What the outcome columns of a row say about the cohorts that it publishes. -/
structure Partitioned (providers : List Provider) (published : List CommittedCohort)
    (row : LatencyWindowEvent) : Prop where
  complete : row.outcomeCompleteCohortCount = published.length
  /-- The strict columns and the ties add up to the complete cohorts. -/
  partition : row.outcomeFoundationStrictFastestCount +
    row.outcomeHydromancerStrictFastestCount + row.outcomeQuicknodeStrictFastestCount +
    row.outcomeQuicknodeVpcStrictFastestCount + row.outcomeTieCount =
      row.outcomeCompleteCohortCount
  strict : ∀ column, row.strictFastest column =
    published.countP fun cohort => decide (cohort.AddsStrict providers column)
  tied : ∀ column, row.tiedFastest column =
    published.countP fun cohort => decide (cohort.AddsTied providers column)
  ties : row.outcomeTieCount = published.countP fun cohort => decide (cohort.Tied providers)
  /-- An active provider's cohorts are those where it alone is fastest. -/
  alone : ∀ (cohort : CommittedCohort), ∀ provider ∈ providers,
    (cohort.AddsStrict providers (OutcomeColumn.ofProvider provider) ↔
      cohort.StrictlyFastest providers provider)
  oneColumn : ∀ (cohort : CommittedCohort) (column other : OutcomeColumn),
    cohort.AddsStrict providers column → cohort.AddsStrict providers other → column = other
  twoColumns : ∀ cohort : CommittedCohort, cohort.Tied providers → ∃ column other,
    column ≠ other ∧ cohort.AddsTied providers column ∧ cohort.AddsTied providers other
  /-- A column without an active provider stays empty. -/
  inactive : ∀ column : OutcomeColumn, (∀ provider ∈ column.family, provider ∉ providers) →
    row.strictFastest column = 0 ∧ row.tiedFastest column = 0

namespace Benchmark

variable {order : IterationOrder} {benchmark : Benchmark} {now wallNowMs : Nat}
  {signals : RuntimeSignals} {clock : ClockHealthSnapshot}

section Row

variable (compared : benchmark.config.hasProviderComparison = true) (wallMs : Nat)
  (assessed : ClockAssessment) (coin : String) (provider : Provider)

/-- The cohorts of a coin that a publication at `now` reports. -/
def publishedCohorts (benchmark : Benchmark) (now : Nat) (coin : String) :
    List CommittedCohort :=
  (benchmark.windows coin).cohorts.filter (CommittedCohort.unreported now)

/-- The counts that the rows of a coin publish. -/
def rowOutcomes (benchmark : Benchmark) (now : Nat) (coin : String) : OutcomeCounts :=
  if benchmark.config.hasProviderComparison then
    unreportedOutcomes (benchmark.windows coin) now benchmark.config.providers
  else {}

/-- The strict columns of a row are family totals of the counts per provider. -/
theorem windowEvent_strictFastest (column : OutcomeColumn) :
    (benchmark.windowEvent now wallNowMs wallMs signals assessed coin provider).strictFastest
        column =
      providerFamilyTotal (benchmark.rowOutcomes now coin).strictFastest column.family := by
  cases column <;> rfl

theorem windowEvent_tiedFastest (column : OutcomeColumn) :
    (benchmark.windowEvent now wallNowMs wallMs signals assessed coin provider).tiedFastest
        column =
      providerFamilyTotal (benchmark.rowOutcomes now coin).tiedFastest column.family := by
  cases column <;> rfl

theorem windowEvent_complete :
    (benchmark.windowEvent now wallNowMs wallMs signals assessed coin
      provider).outcomeCompleteCohortCount = (benchmark.rowOutcomes now coin).complete := rfl

theorem windowEvent_tieCount :
    (benchmark.windowEvent now wallNowMs wallMs signals assessed coin
      provider).outcomeTieCount = (benchmark.rowOutcomes now coin).ties := rfl

include compared

theorem rowOutcomes_eq :
    benchmark.rowOutcomes now coin =
      (benchmark.publishedCohorts now coin).foldl
        (OutcomeCounts.count benchmark.config.providers) {} :=
  if_pos compared

theorem rowOutcomes_complete :
    (benchmark.rowOutcomes now coin).complete =
      (benchmark.publishedCohorts now coin).length := by
  rw [rowOutcomes_eq compared coin, foldl_count_complete]
  exact Nat.zero_add _

theorem rowOutcomes_ties :
    (benchmark.rowOutcomes now coin).ties =
      (benchmark.publishedCohorts now coin).countP fun cohort =>
        decide (cohort.Tied benchmark.config.providers) := by
  rw [rowOutcomes_eq compared coin, foldl_count_eq OutcomeCounts.ties _
    (count_ties benchmark.config.providers_nodup benchmark.config.providers_ne_nil)]
  exact Nat.zero_add _

/-- A strict column counts the strict wins of its providers. -/
theorem familyTotal_strictFastest (column : OutcomeColumn) :
    providerFamilyTotal (benchmark.rowOutcomes now coin).strictFastest column.family =
      (benchmark.publishedCohorts now coin).countP fun cohort =>
        decide (cohort.AddsStrict benchmark.config.providers column) := by
  have perProvider : (benchmark.rowOutcomes now coin).strictFastest = fun provider =>
      (benchmark.publishedCohorts now coin).countP fun cohort =>
        decide (cohort.StrictlyFastest benchmark.config.providers provider) := by
    funext provider
    rw [rowOutcomes_eq compared coin, foldl_count_eq (fun counts => counts.strictFastest provider)
      _ fun counts cohort =>
        count_strictFastest benchmark.config.providers_nodup counts cohort provider]
    exact Nat.zero_add _
  unfold providerFamilyTotal
  rw [perProvider, sum_countP column.family_nodup]
  · refine List.countP_congr fun cohort _ => ?_
    rw [List.any_eq_true, decide_eq_true_iff]
    exact exists_congr fun provider => and_congr_right fun _ => decide_eq_true_iff
  · intro cohort _ first _ second _ isFirst isSecond
    exact (of_decide_eq_true isSecond).eq_of_attains (of_decide_eq_true isFirst).attains

/-- A tied column counts the ties that its active provider shares. -/
theorem familyTotal_tiedFastest (column : OutcomeColumn) :
    providerFamilyTotal (benchmark.rowOutcomes now coin).tiedFastest column.family =
      (benchmark.publishedCohorts now coin).countP fun cohort =>
        decide (cohort.AddsTied benchmark.config.providers column) := by
  have perProvider : (benchmark.rowOutcomes now coin).tiedFastest = fun provider =>
      (benchmark.publishedCohorts now coin).countP fun cohort =>
        decide (cohort.Tied benchmark.config.providers ∧
          cohort.Attains benchmark.config.providers provider) := by
    funext provider
    rw [rowOutcomes_eq compared coin, foldl_count_eq (fun counts => counts.tiedFastest provider)
      _ fun counts cohort =>
        count_tiedFastest benchmark.config.providers_nodup benchmark.config.providers_ne_nil
          counts cohort provider]
    exact Nat.zero_add _
  unfold providerFamilyTotal
  rw [perProvider, sum_countP column.family_nodup]
  · refine List.countP_congr fun cohort _ => ?_
    rw [List.any_eq_true, decide_eq_true_iff]
    constructor
    · rintro ⟨provider, isFamily, holds⟩
      obtain ⟨isTied, attains⟩ := of_decide_eq_true holds
      exact ⟨isTied, provider, isFamily, attains⟩
    · rintro ⟨isTied, provider, isFamily, attains⟩
      exact ⟨provider, isFamily, decide_eq_true ⟨isTied, attains⟩⟩
  · intro cohort _ first isFirst second isSecond firstTied secondTied
    have firstActive := (of_decide_eq_true firstTied).2.1
    have secondActive := (of_decide_eq_true secondTied).2.1
    exact benchmark.config.ofProvider_inj compared first firstActive second secondActive
      ((OutcomeColumn.mem_family_iff.mp isFirst).trans
        (OutcomeColumn.mem_family_iff.mp isSecond).symm)

/-- Every published cohort is a strict win of one column or a tie. -/
theorem partition_of_columns :
    ((OutcomeColumn.all.map fun column =>
        providerFamilyTotal (benchmark.rowOutcomes now coin).strictFastest column.family).sum +
      (benchmark.rowOutcomes now coin).ties) = (benchmark.rowOutcomes now coin).complete := by
  have strictWins : (OutcomeColumn.all.map fun column =>
      providerFamilyTotal (benchmark.rowOutcomes now coin).strictFastest column.family).sum =
      (benchmark.publishedCohorts now coin).countP fun cohort =>
        !decide (cohort.Tied benchmark.config.providers) := by
    simp only [familyTotal_strictFastest compared coin]
    rw [sum_countP (by decide)]
    · refine List.countP_congr fun cohort _ => ?_
      rw [List.any_eq_true, Bool.not_eq_true', decide_eq_false_iff_not,
        ← CommittedCohort.exists_addsStrict_iff benchmark.config.providers_ne_nil]
      exact exists_congr fun column => and_congr_right fun _ => decide_eq_true_iff
    · intro cohort _ first _ second _ isFirst isSecond
      exact (of_decide_eq_true isFirst).unique (of_decide_eq_true isSecond)
  rw [strictWins, rowOutcomes_ties compared, rowOutcomes_complete compared, Nat.add_comm,
    List.length_eq_countP_add_countP fun cohort : CommittedCohort =>
      decide (cohort.Tied benchmark.config.providers)]
  simp only [Bool.not_eq_true, ← Bool.not_eq_true', Bool.decide_eq_true]

/-- The columns of one row. -/
theorem partitioned_windowEvent :
    Partitioned benchmark.config.providers (benchmark.publishedCohorts now coin)
      (benchmark.windowEvent now wallNowMs wallMs signals assessed coin provider) where
  complete := (windowEvent_complete wallMs assessed coin provider).trans
    (rowOutcomes_complete compared coin)
  partition := by
    rw [LatencyWindowEvent.sum_strictFastest,
      funext (windowEvent_strictFastest wallMs assessed coin provider)]
    exact partition_of_columns compared coin
  strict column := (windowEvent_strictFastest wallMs assessed coin provider column).trans
    (familyTotal_strictFastest compared coin column)
  tied column := (windowEvent_tiedFastest wallMs assessed coin provider column).trans
    (familyTotal_tiedFastest compared coin column)
  ties := (windowEvent_tieCount wallMs assessed coin provider).trans
    (rowOutcomes_ties compared coin)
  alone _ _ active := CommittedCohort.addsStrict_ofProvider_iff compared active
  oneColumn _ _ _ := CommittedCohort.AddsStrict.unique
  twoColumns _ := CommittedCohort.Tied.two_columns compared
  inactive column idle := by
    rw [windowEvent_strictFastest, windowEvent_tiedFastest,
      familyTotal_strictFastest compared coin, familyTotal_tiedFastest compared coin]
    constructor
    · refine List.countP_eq_zero.mpr fun cohort _ holds => ?_
      obtain ⟨winner, isFamily, strict⟩ := of_decide_eq_true holds
      exact idle winner isFamily strict.1
    · refine List.countP_eq_zero.mpr fun cohort _ holds => ?_
      obtain ⟨_, sharer, isFamily, attains⟩ := of_decide_eq_true holds
      exact idle sharer isFamily attains.1

end Row

/--
The rows of a prepared window split the cohorts that they publish into the
strict wins of the company columns and the ties, whatever the rings hold.
-/
theorem outcome_columns_partition {after : Benchmark} {rows : List LatencyWindowEvent}
    (compared : benchmark.config.hasProviderComparison = true)
    (prepared : benchmark.windowEvents order now wallNowMs signals clock = some (after, rows)) :
    ∀ row ∈ rows,
      Partitioned benchmark.config.providers (after.publishedCohorts now row.coin) row := by
  rcases windowEvents_passed prepared with ⟨_, none⟩ | ⟨_, _, sameAfter, sameRows⟩
  · intro row member
    rw [none] at member
    exact absurd member List.not_mem_nil
  · intro row member
    rw [sameRows] at member
    obtain ⟨coin, _, ofCoin⟩ := List.mem_flatMap.mp member
    obtain ⟨provider, _, same⟩ := List.mem_map.mp ofCoin
    have preparedCompared :
        (benchmark.prepare order now).config.hasProviderComparison = true := by
      rw [prepare_config]
      exact compared
    have columns : Partitioned _ ((benchmark.prepare order now).publishedCohorts now coin)
        ((benchmark.prepare order now).windowEvent now wallNowMs
          (benchmark.cycleEndMs wallNowMs) signals (clock.assess wallNowMs) coin provider) :=
      partitioned_windowEvent preparedCompared _ _ coin provider
    rw [prepare_config] at columns
    rw [← same, sameAfter]
    exact columns

/-- A provider delivers the quote `px` of time two. -/
def recordSecondQuote (provider : Provider) (px : String) (received : Nat) : Call :=
  .record .stored (.market { quote provider px received with
    key := { (quote provider px received).key with eventMs := 2 } })

/-- Foundation alone is fastest in one cohort, and level with QuickNode in another. -/
def contestedCalls : List Call :=
  [recordQuote .foundationWs "7" 0, recordQuote .quickNodeGrpc "7" 3,
    recordQuote .hydromancerWs "7" 5, recordSecondQuote .foundationWs "8" 6,
    recordSecondQuote .quickNodeGrpc "8" 6, recordSecondQuote .hydromancerWs "8" 9]

theorem outcome_columns_partition_contested :
    ∃ before after rows,
      run step (Benchmark.new bookProcess 0 0) contestedCalls = some before ∧
      before.windowEvents .stored 20 30000 (liveSignals 30000) (soundClock 30000) =
        some (after, rows) ∧
      rows.map (fun row => [row.outcomeFoundationStrictFastestCount, row.outcomeTieCount,
        row.outcomeFoundationTiedFastestCount, row.outcomeQuicknodeTiedFastestCount,
        row.outcomeCompleteCohortCount]) = List.replicate 3 [1, 1, 1, 1, 2] ∧
      ∀ row ∈ rows,
        Partitioned before.config.providers (after.publishedCohorts 20 row.coin) row := by
  have sampled : ((run step (Benchmark.new bookProcess 0 0) contestedCalls).bind fun before =>
      (before.windowEvents .stored 20 30000 (liveSignals 30000) (soundClock 30000)).bind
        fun result => some (before.config.hasProviderComparison, result.2.map fun row =>
          [row.outcomeFoundationStrictFastestCount, row.outcomeTieCount,
            row.outcomeFoundationTiedFastestCount, row.outcomeQuicknodeTiedFastestCount,
            row.outcomeCompleteCohortCount])) =
      some (true, List.replicate 3 [1, 1, 1, 1, 2]) := by decide +kernel
  obtain ⟨before, reached, sampled⟩ := Option.bind_eq_some_iff.mp sampled
  obtain ⟨⟨after, rows⟩, prepared, same⟩ := Option.bind_eq_some_iff.mp sampled
  obtain ⟨compared, counted⟩ := Prod.mk.inj (Option.some.inj same)
  exact ⟨before, after, rows, reached, prepared, counted,
    outcome_columns_partition compared prepared⟩

end Benchmark

end MarketBenchmark
