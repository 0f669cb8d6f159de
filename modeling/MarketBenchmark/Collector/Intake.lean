import MarketBenchmark.Collector.Process
import MarketBenchmark.Benchmark.Conservation

/-!
# What an event brings to the counters

Among the counters of a provider there are five that only receipts move: the
market events it delivered, whether their timestamp was accepted or not, its
reconnects, its sequence gaps and its replays.  A recorded event advances the
five of its own stream by what it brings, and no settlement, tick or
publication touches them.
-/

namespace MarketBenchmark

open Foundation.HashMaps
open Foundation.Runs
open ProviderCounters

/-- Market events, reconnects, missing messages, replayed messages and replay gaps. -/
abbrev Receipts : Type := Nat × Nat × Nat × Nat × Nat

namespace ProviderCounters

def receipts : ProviderCounters →+ Receipts where
  toFun counters :=
    (counters.observed + counters.negativeLatency + counters.futureTimestamp, counters.reconnects,
      counters.sequenceGaps, counters.replayCount, counters.replayGaps)
  map_zero' := rfl
  map_add' first second := by
    simp only [add_def, Prod.mk_add_mk, Prod.mk.injEq, and_true]
    omega

theorem receipts_settledIncrement (config : BenchmarkConfig) (firstObserved : Nat)
    (seen : Provider → Bool) (candidate : PendingCandidate) (provider : Provider) :
    receipts (Benchmark.settledIncrement config firstObserved seen candidate provider) = 0 := by
  unfold Benchmark.settledIncrement Benchmark.outcomeOf
  dsimp only
  rw [map_add]
  split_ifs <;> rfl

end ProviderCounters

def ProbeEvent.brings : ProbeEvent → Receipts
  | .market _ => (1, 0, 0, 0, 0)
  | .reconnect _ _ => (0, 1, 0, 0, 0)
  | .sequenceGap _ _ missing => (0, 0, missing, 0, 0)
  | .replay _ _ messages hasGap => (0, 0, 0, messages, hasGap.toNat)

/-- What an event brings to a stream. -/
def ProbeEvent.bringsTo (event : ProbeEvent) (stream : Stream) : Receipts :=
  if event.stream = stream then event.brings else 0

namespace Benchmark

variable {order : IterationOrder} {benchmark : Benchmark}

/-- What the streams received up to a state. -/
def TookIn (received : Stream → Receipts) (benchmark : Benchmark) : Prop :=
  ∀ provider coin, provider ∈ benchmark.config.providers →
    receipts (benchmark.counters coin provider) = received (provider, coin)

namespace TookIn

variable {received : Stream → Receipts}

theorem new (config : BenchmarkConfig) (now wallNowMs : Nat) :
    (Benchmark.new config now wallNowMs).TookIn fun _ => 0 := fun _ _ _ => rfl

theorem bump (held : benchmark.TookIn received) (coin : String) (provider : Provider)
    (increment : ProviderCounters) :
    (benchmark.bump coin provider increment).TookIn fun stream =>
      received stream + if stream = (provider, coin) then receipts increment else 0 := by
  intro other otherCoin active
  rw [bump_counters, map_add, held other otherCoin active]
  congr 1
  by_cases own : otherCoin = coin ∧ other = provider
  · rw [if_pos own, if_pos (Prod.ext own.2 own.1)]
  · rw [if_neg own, if_neg (fun same => own ⟨congrArg Prod.snd same, congrArg Prod.fst same⟩)]
    exact map_zero receipts

theorem bump_zero (held : benchmark.TookIn received) (coin : String) (provider : Provider)
    {increment : ProviderCounters} (nothing : receipts increment = 0) :
    (benchmark.bump coin provider increment).TookIn received := by
  intro other otherCoin active
  have bumped := held.bump coin provider increment other otherCoin active
  simpa only [nothing, ite_self, add_zero] using bumped

theorem settle (held : benchmark.TookIn received) (key : BaseKey) (now : Nat)
    (evicted : Bool) : (benchmark.settle order key now evicted).TookIn received := by
  cases found : benchmark.pending.lookup key with
  | none =>
      rw [settle_of_lookup_none order benchmark now evicted found]
      exact held
  | some pending =>
      intro provider coin active
      rw [settle_config] at active
      rw [measure_settle order benchmark receipts now evicted found, held provider coin active]
      simp only [receipts_settledIncrement, List.map_const', List.sum_replicate, nsmul_zero,
        ite_self, add_zero]

theorem store (held : benchmark.TookIn received) (event : MarketEvent) :
    (benchmark.store order event).TookIn received := by
  have opened : ∀ cohort, (benchmark.withPending event.key.base cohort).TookIn received :=
    fun _ => held
  rw [store_eq]
  split_ifs
  · exact (opened (benchmark.openedBase event)).bump_zero event.key.coin event.provider rfl
  · exact (opened _).bump_zero event.key.coin event.provider rfl
  · exact (opened _).settle event.key.base event.received false
  · exact opened _

theorem recordSealed (held : benchmark.TookIn received) (event : MarketEvent) :
    (benchmark.recordSealed event).TookIn received := by
  unfold Benchmark.recordSealed
  dsimp only
  refine held.bump_zero event.key.coin event.provider ?_
  split <;> split <;> rfl

/-- An accepted event counts once at its stream, whatever becomes of it. -/
theorem recordAccepted (held : benchmark.TookIn received) (event : MarketEvent) :
    (benchmark.recordAccepted order event).TookIn fun stream =>
      received stream + (ProbeEvent.market event).bringsTo stream := by
  have counted : (benchmark.bump event.key.coin event.provider { observed := 1 }).TookIn
      fun stream => received stream + (ProbeEvent.market event).bringsTo stream := by
    intro provider coin active
    rw [held.bump event.key.coin event.provider { observed := 1 } provider coin active]
    unfold ProbeEvent.bringsTo
    simp only [eq_comm]
    rfl
  refine recordAccepted_induction order benchmark _ _ counted ?_ ?_ ?_ ?_
  · intro state pending _ _ _ before
    exact before.settle event.key.base event.received false
  · intro state oldest _ _ _ _ before
    exact before.settle oldest event.received true
  · intro state _ _ before
    exact before.recordSealed event
  · intro state _ _ _ before
    exact before.store event

theorem tick (held : benchmark.TookIn received) (now : Nat) :
    (benchmark.tick order now).TookIn received :=
  tick_induction order benchmark (TookIn received) held
    (fun _ key _ _ before => before.settle key now false) (fun _ _ before => before)

/-- An event with a refused timestamp counts once as well. -/
theorem recordMarket (held : benchmark.TookIn received) {event : MarketEvent} {after : Benchmark}
    (recorded : benchmark.recordMarket order event = some after) :
    after.TookIn fun stream => received stream + (ProbeEvent.market event).bringsTo stream := by
  have refused : ∀ increment : ProviderCounters, receipts increment = (1, 0, 0, 0, 0) →
      ((benchmark.bump event.key.coin event.provider increment).markIntegrityLoss
        event.key.coin event.received).TookIn fun stream =>
          received stream + (ProbeEvent.market event).bringsTo stream := by
    intro increment one provider coin active
    have bumped := held.bump event.key.coin event.provider increment provider coin active
    rw [one] at bumped
    refine Eq.trans bumped ?_
    unfold ProbeEvent.bringsTo
    simp only [eq_comm]
    rfl
  unfold Benchmark.recordMarket at recorded
  by_cases active : event.provider ∈ benchmark.config.providers
  · rw [if_neg (not_not_intro active)] at recorded
    split at recorded
    · cases recorded
    · split at recorded
      · cases recorded
        exact refused _ rfl
      · split at recorded
        · cases recorded
          refine refused _ ?_
          split <;> rfl
        · cases recorded
          exact held.recordAccepted event
  · rw [if_pos active] at recorded
    cases recorded
    intro provider coin isActive
    have other : (ProbeEvent.market event).stream ≠ (provider, coin) := by
      intro same
      have own : event.provider = provider := congrArg Prod.fst same
      exact active (own ▸ isActive)
    rw [held provider coin isActive]
    dsimp only [ProbeEvent.bringsTo]
    rw [if_neg other, add_zero]

/-- A recorded event counts at its own stream. -/
theorem record (held : benchmark.TookIn received) {event : ProbeEvent} {after : Benchmark}
    (recorded : benchmark.record order event = some after) :
    after.TookIn fun stream => received stream + event.bringsTo stream := by
  have control : ∀ (provider : Provider) (coin : String) (increment : ProviderCounters),
      event.stream = (provider, coin) → receipts increment = event.brings →
      (benchmark.bump coin provider increment).TookIn fun stream =>
        received stream + event.bringsTo stream := by
    intro provider coin increment own brought other otherCoin active
    rw [held.bump coin provider increment other otherCoin active, brought]
    unfold ProbeEvent.bringsTo
    rw [own]
    simp only [eq_comm]
  unfold Benchmark.record at recorded
  cases event with
  | market event => exact held.recordMarket recorded
  | reconnect provider coin =>
      dsimp only at recorded
      split_ifs at recorded
      cases recorded
      exact control provider coin _ rfl rfl
  | sequenceGap provider coin missing =>
      dsimp only at recorded
      split_ifs at recorded
      cases recorded
      exact control provider coin _ rfl rfl
  | replay provider coin messages hasGap =>
      dsimp only at recorded
      split_ifs at recorded
      cases recorded
      exact control provider coin _ rfl rfl

end TookIn

/-- What an activity brings to a stream: the event it records. -/
def Activity.bringsTo (stream : Stream) : Activity → Receipts
  | .record _ event => event.bringsTo stream
  | _ => 0

/-- The receipts of the active streams move with the recorded events alone. -/
theorem TookIn.act {received : Stream → Receipts} (held : benchmark.TookIn received)
    {activity : Activity} {after : Benchmark} (acted : benchmark.act activity = some after) :
    after.TookIn fun stream => received stream + activity.bringsTo stream := by
  cases activity with
  | record order event =>
      rw [Benchmark.act, Activity.calls, run_singleton] at acted
      exact held.record acted
  | tick order now =>
      rw [Benchmark.act, Activity.calls, run_singleton] at acted
      cases acted
      simpa only [Activity.bringsTo, add_zero] using held.tick now
  | publishWindow order now wallNowMs signals clock accepted =>
      have clear : (benchmark.withPrepared none).TookIn received := held
      have prepared : (benchmark.prepare order now).TookIn received := clear.tick now
      simp only [Activity.bringsTo, add_zero]
      rcases publishWindow_cases acted with ⟨_, same⟩ | ⟨_, _, _, same⟩
      · rw [same]
        exact prepared
      · rw [same]
        exact prepared

end Benchmark

end MarketBenchmark
