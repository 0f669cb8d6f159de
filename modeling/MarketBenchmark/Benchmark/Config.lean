import MarketBenchmark.Model

/-!
# Benchmark configuration

Which providers a process compares, which of them is the reference, and the
bounds on its state.
-/

namespace MarketBenchmark

def minReadySamples : Nat := 1000
def maxFutureSkewMs : Nat := 5000
def maxSignaturesPerBase : Nat := 4
def defaultMaxPending : Nat := 5000
def defaultMaxSettled : Nat := 20000
def defaultMaxRollingCohorts : Nat := 25000
def fillsDesignCohortsPerSecond : Nat := 1000
def fillsPendingBurstSeconds : Nat := 25
def fillsMaxPending : Nat := fillsDesignCohortsPerSecond * fillsPendingBurstSeconds
def fillsMaxSettled : Nat := 400000
def fillsMaxRollingCohortsPerProcess : Nat := fillsDesignCohortsPerSecond * 300
def mempoolDesignBundlesPerSecond : Nat := 200
def mempoolMaxSettled : Nat := 80000
def maxCoinsPerProcess : Nat := 10
def mempoolMaxRollingCohortsPerProcess : Nat := mempoolDesignBundlesPerSecond * 300 * 5 / 4

structure BenchmarkConfig where
  dataset : Dataset
  coins : List String
  cloud : String
  region : String
  metro : String
  runner : String
  runId : String
  rollingWindow : Nat
  publishInterval : Nat
  cohortTimeout : Nat
  staleAfter : Nat
  maxPending : Nat
  maxSettled : Nat
  maxRollingCohorts : Nat
  peeringMode : PeeringMode
  vpcLocal : Bool
  deriving DecidableEq, Repr

/-- `(max_pending, max_settled, max_rolling_cohorts)` of a production process. -/
def productionStateCapacity (dataset : Dataset) (coinCount : Nat) : Nat × Nat × Nat :=
  match dataset with
  | .bbo | .l2book => (defaultMaxPending, defaultMaxSettled, defaultMaxRollingCohorts)
  | .fills =>
      (fillsMaxPending, fillsMaxSettled, fillsMaxRollingCohortsPerProcess / max coinCount 1)
  | .mempool | .peering =>
      (defaultMaxPending, mempoolMaxSettled,
        mempoolMaxRollingCohortsPerProcess / max coinCount 1)

namespace BenchmarkConfig

def production (dataset : Dataset) (coins : List String)
    (cloud region metro runner runId : String) : BenchmarkConfig :=
  let capacity := productionStateCapacity dataset coins.length
  { dataset, coins, cloud, region, metro, runner, runId
    rollingWindow := fromSecs 300
    publishInterval := fromSecs 30
    cohortTimeout := fromSecs 5
    staleAfter := fromSecs 60
    maxPending := capacity.1
    maxSettled := capacity.2.1
    maxRollingCohorts := capacity.2.2
    peeringMode := .quicknode
    vpcLocal := false }

def providers (config : BenchmarkConfig) : List Provider :=
  match config.dataset, config.vpcLocal with
  | .peering, true => config.peeringMode.vpcProviders
  | .peering, false => config.peeringMode.providers
  | .fills, true => fillsVpcProviders
  | .bbo, true | .l2book, true => bookVpcProviders
  | .mempool, true => mempoolVpcProviders
  | dataset, false => dataset.providers

def referenceProvider (config : BenchmarkConfig) : Provider :=
  match config.dataset, config.vpcLocal with
  | .peering, _ => config.peeringMode.referenceProvider
  | .fills, true | .bbo, true | .l2book, true => .quickNodeVpc
  | dataset, _ => dataset.referenceProvider

def hasProviderComparison (config : BenchmarkConfig) : Bool :=
  match config.dataset, config.vpcLocal with
  | .peering, true | .mempool, true => true
  | .fills, true | .bbo, true | .l2book, true => false
  | .peering, false => config.peeringMode.hasProviderComparison
  | dataset, false => dataset.hasProviderComparison

/-- Datasets whose content is canonical as soon as any active provider delivers it. -/
def canonicalByAnyArrival (config : BenchmarkConfig) : Bool :=
  config.dataset == .peering || (config.dataset == .mempool && config.vpcLocal)

theorem providers_nodup (config : BenchmarkConfig) : config.providers.Nodup := by
  unfold providers
  cases config.dataset <;> cases config.vpcLocal <;> cases config.peeringMode <;> decide

theorem referenceProvider_mem (config : BenchmarkConfig) :
    config.referenceProvider ∈ config.providers := by
  unfold providers referenceProvider
  cases config.dataset <;> cases config.vpcLocal <;> cases config.peeringMode <;> decide

theorem providers_ne_nil (config : BenchmarkConfig) : config.providers ≠ [] :=
  List.ne_nil_of_mem config.referenceProvider_mem

/-- The rings of a production process have room for all contents of a base. -/
theorem maxSignaturesPerBase_le_production (dataset : Dataset) {coins : List String}
    (few : coins.length ≤ maxCoinsPerProcess) (cloud region metro runner runId : String) :
    maxSignaturesPerBase ≤
      (production dataset coins cloud region metro runner runId).maxRollingCohorts := by
  have divided : ∀ total, 4 * maxCoinsPerProcess ≤ total → 4 ≤ total / max coins.length 1 := by
    intro total enough
    have bounded : max coins.length 1 ≤ maxCoinsPerProcess := max_le few (by decide)
    refine (Nat.le_div_iff_mul_le (Nat.le_max_right _ _)).mpr ?_
    exact (Nat.mul_le_mul_left 4 bounded).trans enough
  cases dataset with
  | bbo => exact show (4 : Nat) ≤ defaultMaxRollingCohorts by decide
  | l2book => exact show (4 : Nat) ≤ defaultMaxRollingCohorts by decide
  | fills => exact divided fillsMaxRollingCohortsPerProcess (by decide)
  | mempool => exact divided mempoolMaxRollingCohortsPerProcess (by decide)
  | peering => exact divided mempoolMaxRollingCohortsPerProcess (by decide)

end BenchmarkConfig

end MarketBenchmark
