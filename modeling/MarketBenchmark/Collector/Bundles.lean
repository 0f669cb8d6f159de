import MarketBenchmark.Collector.Offers
import MarketBenchmark.Collector.Joined
import MarketBenchmark.Feeds.MempoolSights

/-!
# Cohorts of the mempool dataset

On the box a cohort compares the two legs of the join.  Whatever they read, and
however their inputs wait in the queue, the arrivals of a cohort are messages
with one bundle, and its time is the first sight of that bundle.
-/

namespace MarketBenchmark

open Feeds
open Foundation.Channels
open Foundation.HashMaps
open Foundation.Runs

variable {serde : BundleSerde} {chrono : Chrono}

/-! ## Joins -/

/-- The join of the coin works on known inputs only. -/
structure JoinTask.Sound (Known : JoinInput → Prop) (coin : String) (task : JoinTask) : Prop where
  coin : task.join.coin = coin
  queued : ∀ input ∈ task.queue.items, Known input
  backed : task.join.Backed Known

namespace JoinTask

variable {Known More : JoinInput → Prop} {coin : String} {task : JoinTask}

theorem sound_new (coin : String) : (JoinTask.new coin).Sound Known coin where
  coin := rfl
  queued _ member := absurd member List.not_mem_nil
  backed := MempoolJoin.backed_new coin

theorem Sound.mono (sound : task.Sound Known coin) (grows : ∀ input, Known input → More input) :
    task.Sound More coin where
  coin := sound.coin
  queued input member := grows input (sound.queued input member)
  backed := sound.backed.mono grows

/-- A call of the join on known inputs, with what is left in the queue. -/
theorem Sound.next (sound : task.Sound Known coin) {call : MempoolJoin.JoinCall}
    (known : ∀ input now, call = .offer input now → Known input) {queue : Channel JoinInput}
    (within : queue.items ⊆ task.queue.items) :
    ({ queue := queue, join := task.join.next call } : JoinTask).Sound Known coin where
  coin := (coin_next task.join call).trans sound.coin
  queued input member := sound.queued input (within member)
  backed := sound.backed.next known

end JoinTask

namespace JoinedCollector

variable {joined next : JoinedCollector}

/-- A message of the coin was read as the input. -/
def Read (serde : BundleSerde) (chrono : Chrono) (joined : JoinedCollector) (coin : String)
    (input : JoinInput) : Prop :=
  ∃ seen ∈ joined.seen, seen.coin = coin ∧ seen.input serde chrono = some input

/-- Inputs that were read explain the event. -/
def Traced (serde : BundleSerde) (chrono : Chrono) (joined : JoinedCollector)
    (market : MarketEvent) : Prop :=
  ∃ coin input first, Explains (Read serde chrono joined coin) coin market input first

/-- Joins work on what was read, and the collector is offered what inputs explain. -/
structure Sound (serde : BundleSerde) (chrono : Chrono) (origin : Collector)
    (joined : JoinedCollector) : Prop where
  under : Collector.Under origin (Traced serde chrono joined) joined.collector
  joins : ∀ coin, (joined.joins coin).Sound (Read serde chrono joined coin) coin

variable {origin : Collector}

theorem Read.mono {coin : String} {input : JoinInput}
    (read : Read serde chrono joined coin input) (grows : joined.seen <+: next.seen) :
    Read serde chrono next coin input := by
  obtain ⟨seen, member, rest⟩ := read
  exact ⟨seen, grows.subset member, rest⟩

theorem Traced.mono {market : MarketEvent} (traced : Traced serde chrono joined market)
    (grows : joined.seen <+: next.seen) : Traced serde chrono next market := by
  obtain ⟨coin, input, first, explains⟩ := traced
  exact ⟨coin, input, first,
    { explains with
      known := explains.known.mono grows
      firstKnown := explains.firstKnown.mono grows }⟩

/-- The collector advances, more may be seen, and the joins are sound for it. -/
theorem Sound.grow (sound : Sound serde chrono origin joined)
    (advances : joined.collector.Advances next.collector (Traced serde chrono next))
    (grows : joined.seen <+: next.seen)
    (joins : ∀ coin, (next.joins coin).Sound (Read serde chrono next coin) coin) :
    Sound serde chrono origin next where
  under := sound.under.advances advances fun _ traced => traced.mono grows
  joins := joins

/-- The joins stay as they are. -/
theorem Sound.keep (sound : Sound serde chrono origin joined)
    (advances : joined.collector.Advances next.collector (Traced serde chrono next))
    (grows : joined.seen <+: next.seen) (same : next.joins = joined.joins) :
    Sound serde chrono origin next :=
  sound.grow advances grows fun coin =>
    same ▸ (sound.joins coin).mono fun _ read => read.mono grows

/-- One join is set: the others stay. -/
theorem Sound.set (sound : Sound serde chrono origin joined) {coin : String} {task : JoinTask}
    (advances : joined.collector.Advances next.collector (Traced serde chrono next))
    (grows : joined.seen <+: next.seen)
    (same : next.joins = Function.update joined.joins coin task)
    (own : task.Sound (Read serde chrono next coin) coin) : Sound serde chrono origin next := by
  refine sound.grow advances grows fun other => ?_
  rw [same, Function.update_apply]
  split
  · next isOwn => exact isOwn ▸ own
  · exact (sound.joins other).mono fun _ read => read.mono grows

theorem Sound.feed (sound : Sound serde chrono origin joined) {index lastFrame : Nat}
    {coin : String} {input : JoinInput} (read : Read serde chrono joined coin input)
    (fed : joined.feed index lastFrame coin input = some next) :
    Sound serde chrono origin next := by
  unfold JoinedCollector.feed at fed
  dsimp only at fed
  rcases (joined.joins coin).queue.trySend_cases input with
    ⟨offered, _⟩ | ⟨offered, _⟩ | ⟨offered, _⟩
  · rw [offered] at fed
    cases fed
    exact sound.keep .refl (List.prefix_refl _) rfl
  · rw [offered] at fed
    cases fed
    refine sound.set .refl (List.prefix_refl _) rfl ?_
    have before := sound.joins coin
    refine ⟨before.coin, fun other member => ?_, before.backed⟩
    rcases List.mem_append.mp member with queued | here
    · exact before.queued other queued
    · exact List.mem_singleton.mp here ▸ read
  · rw [offered] at fed
    cases fed

/-- A join whose events are explained sends them. -/
theorem Sound.send (sound : Sound serde chrono origin joined) {coin : String} {task : JoinTask}
    (own : task.Sound (Read serde chrono joined coin) coin) {nowMs : Nat}
    {events : List ProbeEvent}
    (plain : ∀ event ∈ events, ∀ provider coin, event ≠ .reconnect provider coin)
    (explained : ∀ market, .market market ∈ events → Traced serde chrono joined market)
    (sent : joined.send coin task nowMs events = some next) : Sound serde chrono origin next := by
  obtain ⟨⟨collector, isOpen⟩, sentAll, rfl⟩ := Option.map_eq_some_iff.mp sent
  refine sound.set (.sendAll plain ?_ sentAll) (List.prefix_refl _) rfl ?_
  · intro market member
    exact (explained market member).mono (List.prefix_refl _)
  · split
    · exact own
    · exact ⟨own.coin, own.queued, own.backed⟩

/-- The events of a call on known inputs are explained. -/
theorem Sound.traced (sound : Sound serde chrono origin joined) {coin : String}
    {call : MempoolJoin.JoinCall}
    (known : ∀ input now, call = .offer input now → Read serde chrono joined coin input)
    {market : MarketEvent} (returned : market ∈ (joined.joins coin).join.returned call) :
    Traced serde chrono joined market := by
  obtain ⟨input, first, explains⟩ := (sound.joins coin).backed.explains known returned
  exact ⟨_, input, first, (sound.joins coin).coin ▸ explains⟩

theorem Sound.step (sound : Sound serde chrono origin joined) {action : JoinedAction}
    (stepped : joined.step serde chrono action = some next) :
    Sound serde chrono origin next := by
  cases action with
  | loop action =>
      obtain ⟨collector, looped, rfl⟩ := Option.map_eq_some_iff.mp stepped
      dsimp only
      split
      · exact sound.keep (.loop looped) (List.prefix_refl _) rfl
      · exact sound.keep (.loop looped) (List.prefix_refl _) rfl
  | opened index now nowMs =>
      obtain ⟨task, _, stepped⟩ := Option.bind_eq_some_iff.mp stepped
      split at stepped
      · obtain ⟨collector, one, rfl⟩ := Option.map_eq_some_iff.mp stepped
        exact sound.keep (.one one fun _ _ => Action.noConfusion) (List.prefix_refl _) rfl
      · cases stepped
  | turn index wake clock =>
      obtain ⟨task, _, stepped⟩ := Option.bind_eq_some_iff.mp stepped
      split at stepped
      · obtain ⟨turn, _, stepped⟩ := Option.bind_eq_some_iff.mp stepped
        split at stepped
        · cases stepped
          exact sound.keep .refl (List.prefix_refl _) rfl
        · cases stepped
          exact sound.keep .refl (List.prefix_refl _) rfl
        · next lastFrame seen _ =>
            -- the message is seen, whatever the leg makes of it
            have later : Sound serde chrono origin { joined with seen := joined.seen ++ [seen] } :=
              sound.keep .refl (List.prefix_append _ _) rfl
            dsimp only at stepped
            split at stepped
            · cases stepped
              exact later.keep .refl (List.prefix_refl _) rfl
            · next input isInput =>
                refine later.feed ⟨seen, ?_, rfl, isInput⟩ stepped
                exact List.mem_append_right _ (List.mem_singleton_self seen)
      · cases stepped
  | offered coin now nowMs =>
      dsimp only [JoinedCollector.step] at stepped
      split at stepped
      · cases stepped
      · obtain ⟨⟨input, queue⟩, received, stepped⟩ := Option.bind_eq_some_iff.mp stepped
        obtain ⟨items, _⟩ := Channel.receive_eq_some received
        have known : ∀ other stamp, MempoolJoin.JoinCall.offer input now = .offer other stamp →
            Read serde chrono joined coin other := by
          rintro other stamp ⟨⟩
          exact (sound.joins coin).queued input (items ▸ List.mem_cons_self)
        have within : queue.items ⊆ (joined.joins coin).queue.items :=
          items ▸ List.subset_cons_self _ _
        refine sound.send ((sound.joins coin).next known within) ?_ ?_ stepped
        · intro event member provider other same
          obtain ⟨market, _, isMarket⟩ := List.mem_map.mp member
          cases isMarket.trans same
        · intro market member
          obtain ⟨other, returned, same⟩ := List.mem_map.mp member
          cases same
          exact sound.traced known returned
  | expired coin order now nowMs =>
      dsimp only [JoinedCollector.step] at stepped
      split at stepped
      · cases stepped
      · have known : ∀ other stamp, MempoolJoin.JoinCall.expire order now = .offer other stamp →
            Read serde chrono joined coin other := nofun
        refine sound.send ((sound.joins coin).next known (List.Subset.refl _)) ?_ ?_ stepped
        · intro event member provider other same
          subst same
          rcases List.mem_append.mp member with isGap | isMarket
          · split at isGap
            · cases List.mem_singleton.mp isGap
            · cases isGap
          · obtain ⟨market, _, impossible⟩ := List.mem_map.mp isMarket
            cases impossible
        · intro market member
          rcases List.mem_append.mp member with isGap | isMarket
          · split at isGap
            · cases List.mem_singleton.mp isGap
            · cases isGap
          · obtain ⟨other, returned, same⟩ := List.mem_map.mp isMarket
            cases same
            exact sound.traced known returned

/-! ## Cohorts -/

/-- Inputs of one bundle explain a cohort: it has their latencies, no provider's input saw the
bundle before the time of the cohort, and the first one did at that time. -/
structure TimesBundle (config : BenchmarkConfig) (cohort : CommittedCohort) (hash : String)
    (source : Provider → JoinInput) (first : JoinInput) : Prop where
  bundle : ∀ provider ∈ config.providers,
    (source provider).provider = provider ∧ (source provider).hash = hash
  timed : ∀ provider ∈ config.providers, cohort.eventMs ≤ (source provider).receivedWallMs ∧
    cohort.latencyMs provider = (source provider).receivedWallMs - cohort.eventMs
  earliest : ∀ provider ∈ config.providers, ∀ ms, (source provider).Sights ms →
    cohort.eventMs ≤ ms
  sighted : first.hash = hash ∧ first.Sights cohort.eventMs
  close : ∀ first ∈ config.providers, ∀ second ∈ config.providers,
    (source first).received < (source second).received + config.cohortTimeout

variable {config : BenchmarkConfig} {tasks : List StreamTask} {startedAt startedWallMs : Nat}
  {actions : List JoinedAction} {final : JoinedCollector}

theorem sound_of_run
    (reached : run (step serde chrono) (start config tasks startedAt startedWallMs) actions =
      some final) :
    Sound serde chrono (.start config tasks startedAt startedWallMs) final :=
  run_preserves (Sound serde chrono _) (fun _ _ _ sound stepped => sound.step stepped)
    ⟨.start config tasks startedAt startedWallMs _, fun coin => JoinTask.sound_new coin⟩ reached

/--
In every run, whatever the legs read and however their inputs wait for the join,
a cohort in a ring times one bundle: every active provider's leg read a message
with the bundle, and the cohort has the latencies of these.  Its time is the
first sight of the bundle: a message that was read saw the bundle then, and none
of the cohort's saw it before.
-/
theorem cohorts_time_one_bundle
    (reached : run (step serde chrono) (start config tasks startedAt startedWallMs) actions =
      some final) {coin : String} {cohort : CommittedCohort}
    (member : cohort ∈ (final.collector.benchmark.windows coin).cohorts) :
    ∃ hash source first, TimesBundle config cohort hash source first ∧
      Read serde chrono final coin first ∧
      ∀ provider ∈ config.providers, Read serde chrono final coin (source provider) := by
  obtain ⟨key, arrival, sources, traced⟩ := (sound_of_run reached).under.sources member
  have exists_inputs : ∀ provider, ∃ inputs : JoinInput × JoinInput,
      provider ∈ config.providers →
        Explains (Read serde chrono final coin) coin (arrival provider) inputs.1 inputs.2 := by
    intro provider
    by_cases active : provider ∈ config.providers
    · obtain ⟨other, input, first, explains⟩ := traced provider active
      have sameCoin : other = coin := by
        rw [← sources.coin, ← (sources.key provider active).2, explains.key]
      exact ⟨(input, first), fun _ => sameCoin ▸ explains⟩
    · exact ⟨(.grpc "" 0 0, .grpc "" 0 0), fun isActive => absurd isActive active⟩
  choose inputs explains using exists_inputs
  have content : ∀ provider ∈ config.providers,
      key.content = .mempool (inputs provider).1.hash := by
    intro provider active
    rw [← (sources.key provider active).2, (explains provider active).key]
  have eventMs : ∀ provider ∈ config.providers,
      (arrival provider).key.eventMs = cohort.eventMs := by
    intro provider active
    rw [(sources.key provider active).2, sources.eventMs]
  have reference := config.referenceProvider_mem
  -- the content of the one key is the bundle of every leg
  have sameHash : ∀ provider ∈ config.providers,
      (inputs provider).1.hash = (inputs config.referenceProvider).1.hash := by
    intro provider active
    exact ContentKey.mempool.inj ((content provider active).symm.trans (content _ reference))
  refine ⟨(inputs config.referenceProvider).1.hash, fun provider => (inputs provider).1,
    (inputs config.referenceProvider).2, ⟨?_, ?_, ?_, ?_, ?_⟩, (explains _ reference).firstKnown,
    fun provider active => (explains provider active).known⟩
  · intro provider active
    refine ⟨?_, sameHash provider active⟩
    rw [(explains provider active).provider]
    exact (sources.key provider active).1
  · intro provider active
    rw [(explains provider active).receivedWallMs]
    exact sources.timed provider active
  · intro provider active ms sights
    rw [← eventMs provider active]
    exact (explains provider active).earliest ms sights
  · refine ⟨(explains _ reference).sameHash, ?_⟩
    rw [← eventMs _ reference]
    exact (explains _ reference).sighted
  · intro first isFirst second isSecond
    rw [(explains first isFirst).received, (explains second isSecond).received]
    exact sources.close first isFirst second isSecond

def mempoolProcess : BenchmarkConfig :=
  { BenchmarkConfig.production .mempool ["BTC"] "aws" "nrt" "nrt" "aws-nrt-01" "run" with
    rollingWindow := 1000
    cohortTimeout := 10
    vpcLocal := true }

def mempoolTasks : List StreamTask :=
  [{ kind := .quicknode, provider := .quickNodeGrpc, coin := "BTC" },
    { kind := .bundleLines, provider := .quickNodeVpc, coin := "BTC" }]

/-- A leg reads a message at an instant, one millisecond later on the wall clock. -/
def read (index : Nat) (message : BundleMessage) (instant : Nat) : JoinedAction :=
  .turn index (.message message) ⟨instant, instant, instant + 1⟩

/-- The sentry had the bundle at time one, its line is read before the endpoint's message. -/
def mempoolActions : List JoinedAction :=
  [.loop (.dial 0 0), .loop (.dial 1 0), .opened 0 1 2, .opened 1 1 2,
    read 1 (.line (lineText "")) 2, read 0 (.payload (payloadText "")) 5, .offered "BTC" 6 7,
    .offered "BTC" 6 7, .loop (.receive .stored), .loop (.receive .stored),
    .loop (.tick .stored 20)]

theorem cohorts_time_one_bundle_local :
    ∃ final cohort, run (step (bundleSerde "" []) sampleChrono)
        (start mempoolProcess mempoolTasks 0 0) mempoolActions = some final ∧
      (final.collector.benchmark.windows "BTC").cohorts = [cohort] ∧
      ∃ hash source first, TimesBundle mempoolProcess cohort hash source first ∧
        Read (bundleSerde "" []) sampleChrono final "BTC" first ∧
        ∀ provider ∈ mempoolProcess.providers,
          Read (bundleSerde "" []) sampleChrono final "BTC" (source provider) := by
  have observed : (run (step (bundleSerde "" []) sampleChrono)
      (start mempoolProcess mempoolTasks 0 0) mempoolActions).map
        (fun final => (final.collector.benchmark.windows "BTC").cohorts.length) = some 1 := by
    decide +kernel
  obtain ⟨final, reached, count⟩ := Option.map_eq_some_iff.mp observed
  obtain ⟨cohort, ring⟩ := List.length_eq_one_iff.mp count
  refine ⟨final, cohort, reached, ring, cohorts_time_one_bundle reached ?_⟩
  rw [ring]
  exact List.mem_singleton_self cohort

end JoinedCollector

end MarketBenchmark
