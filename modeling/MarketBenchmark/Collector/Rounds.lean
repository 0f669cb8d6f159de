import MarketBenchmark.Collector.Offers
import MarketBenchmark.Collector.Peered
import MarketBenchmark.Peering.LegRounds

/-!
# Cohorts of the peering dataset

The legs are compared by their races for one round of the chain.  Whatever the
peers send, however it is cut, captured or interleaved, the arrivals of a cohort
are the closings of one round in sessions that heard all of it.
-/

namespace MarketBenchmark

open Foundation.HashMaps
open Foundation.Panics
open Foundation.Runs

variable {libraries : LegLibraries}

theorem StreamTask.grounded_leg {task : StreamTask} {openedMs now : Nat} {leg : Leg}
    (opened : task.leg openedMs now = some leg) (parseReferenceTimeMs : String → Option Nat) :
    leg.Grounded parseReferenceTimeMs task.stream openedMs [] := by
  unfold StreamTask.leg at opened
  split at opened
  · cases opened
    exact Assembly.Reached.refl
  · cases opened
    exact Assembly.Reached.refl
  · cases opened
    exact DecodedAssembly.Reached.refl
  · cases opened

/-- The session heard all of the round that it closed. -/
def ClosedRound.Heard (parseReferenceTimeMs : String → Option Nat) (closed : ClosedRound)
    (round : Nat) : Prop :=
  closed.event.key.content = .peering round ∧
    HeardRound parseReferenceTimeMs closed.openedMs closed.entries closed.event round

namespace PeeredCollector

variable {peered next : PeeredCollector}

/-- A session closed the round of the event. -/
def Closes (parseReferenceTimeMs : String → Option Nat) (peered : PeeredCollector)
    (market : MarketEvent) : Prop :=
  ∃ closed ∈ peered.closed, closed.event = market ∧
    ∃ round, closed.Heard parseReferenceTimeMs round

/-- Sessions track what their entries cause, and the collector is offered what they closed. -/
structure Sound (parseReferenceTimeMs : String → Option Nat) (origin : Collector)
    (peered : PeeredCollector) : Prop where
  under : Collector.Under origin (Closes parseReferenceTimeMs peered) peered.collector
  grounded : ∀ index leg openedMs entries, peered.legs index = .reading leg openedMs entries →
    ∃ task, leg.Grounded parseReferenceTimeMs task openedMs entries

variable {parseReferenceTimeMs : String → Option Nat} {origin : Collector}

/-- The collector offers nothing of its own, and legs stay or are opened. -/
theorem Sound.one (sound : Sound parseReferenceTimeMs origin peered)
    (advances : peered.collector.Advances next.collector (Closes parseReferenceTimeMs next))
    (closed : next.closed = peered.closed)
    (legs : ∀ index leg openedMs entries, next.legs index = .reading leg openedMs entries →
      peered.legs index = .reading leg openedMs entries ∨
        ∃ task, leg.Grounded parseReferenceTimeMs task openedMs entries) :
    Sound parseReferenceTimeMs origin next where
  under := by
    refine sound.under.advances advances ?_
    rintro market ⟨one, member, rest⟩
    exact ⟨one, closed ▸ member, rest⟩
  grounded index leg openedMs entries reading := by
    rcases legs index leg openedMs entries reading with before | fresh
    · exact sound.grounded index leg openedMs entries before
    · exact fresh

/-- A leg is set: the others stay. -/
theorem reading_setLeg {index other : Nat} {phase : LegPhase} {leg : Leg} {openedMs : Nat}
    {entries : List LegEntry}
    (reading : (peered.setLeg index phase).legs other = .reading leg openedMs entries) :
    phase = .reading leg openedMs entries ∨ peered.legs other = .reading leg openedMs entries := by
  unfold setLeg at reading
  dsimp only at reading
  rw [Function.update_apply] at reading
  split at reading
  · exact Or.inl reading
  · exact Or.inr reading

/-- The events of a leg are no reconnects, and its market events are those of the drain. -/
theorem mem_events {leg : Leg} {drained : List MarketEvent × Nat} {event : ProbeEvent}
    (member : event ∈ leg.events drained) :
    (∃ market ∈ drained.1, event = .market market) ∨
      event = .sequenceGap leg.stream.1 leg.stream.2 drained.2 := by
  rcases List.mem_append.mp member with isMarket | isGap
  · obtain ⟨market, isDrained, same⟩ := List.mem_map.mp isMarket
    exact Or.inl ⟨market, isDrained, same.symm⟩
  · split at isGap
    · exact Or.inr (List.mem_singleton.mp isGap)
    · cases isGap

theorem Sound.send (sound : Sound parseReferenceTimeMs origin peered) {index : Nat} {leg : Leg}
    {task : Provider × String} {openedMs : Nat} {entries : List LegEntry}
    (grounded : leg.Grounded parseReferenceTimeMs task openedMs entries)
    {order : IterationOrder} {now nowMs : Nat}
    (sent : peered.send index leg openedMs entries order now nowMs = some next) :
    Sound parseReferenceTimeMs origin next := by
  obtain ⟨⟨collector, isOpen⟩, sentAll, rfl⟩ := Option.map_eq_some_iff.mp sent
  constructor
  · refine sound.under.advances (.sendAll ?_ ?_ sentAll) ?_
    · intro event member provider coin same
      subst same
      rcases mem_events member with ⟨market, _, impossible⟩ | impossible
      · cases impossible
      · cases impossible
    · intro market member
      have returned : market ∈ (leg.drainReady order now).2.1 := by
        rcases mem_events member with ⟨other, isDrained, same⟩ | impossible
        · cases same
          exact isDrained
        · cases impossible
      obtain ⟨round, content, heard⟩ := grounded.heard returned
      exact ⟨_, List.mem_append_right _ (List.mem_map_of_mem returned), rfl, round, content, heard⟩
    · rintro market ⟨closed, member, rest⟩
      exact ⟨closed, List.mem_append_left _ member, rest⟩
  · intro other otherLeg otherMs otherEntries reading
    rcases reading_setLeg reading with here | before
    · split at here
      · cases here
        exact ⟨task, grounded.drainReady order now⟩
      · cases here
    · exact sound.grounded other otherLeg otherMs otherEntries before

theorem Sound.step
    (sound : Sound libraries.parseReferenceTimeMs origin peered) {action : PeeredAction}
    (stepped : peered.step libraries action = some next) :
    Sound libraries.parseReferenceTimeMs origin next := by
  cases action with
  | loop action =>
      obtain ⟨collector, looped, rfl⟩ := Option.map_eq_some_iff.mp stepped
      dsimp only
      split
      · refine sound.one (.loop looped) rfl fun other leg openedMs entries reading => ?_
        exact Or.inl ((reading_setLeg reading).resolve_left LegPhase.noConfusion)
      · exact sound.one (.loop looped) rfl fun _ _ _ _ => Or.inl
  | opened index nowMs openedMs now =>
      obtain ⟨task, _, stepped⟩ := Option.bind_eq_some_iff.mp stepped
      split at stepped
      · obtain ⟨leg, isLeg, stepped⟩ := Option.bind_eq_some_iff.mp stepped
        obtain ⟨collector, one, rfl⟩ := Option.map_eq_some_iff.mp stepped
        refine sound.one (.one one fun _ _ => Action.noConfusion) rfl ?_
        intro other otherLeg otherMs entries reading
        rcases reading_setLeg reading with here | before
        · cases here
          exact Or.inr ⟨task.stream, StreamTask.grounded_leg isLeg _⟩
        · exact Or.inl before
      · cases stepped
  | turn index input order now nowMs =>
      unfold PeeredCollector.step at stepped
      dsimp only at stepped
      split at stepped
      · next leg openedMs entries reading =>
          obtain ⟨task, grounded⟩ := sound.grounded index leg openedMs entries reading
          obtain ⟨legStep, handled, stepped⟩ := Option.bind_eq_some_iff.mp stepped
          cases legStep with
          | fails =>
              cases stepped
              refine ⟨sound.under, fun other otherLeg otherMs otherEntries still => ?_⟩
              exact sound.grounded other otherLeg otherMs otherEntries
                ((reading_setLeg still).resolve_left LegPhase.noConfusion)
          | goesOn after fresh => exact sound.send (grounded.handle handled) stepped
      · cases stepped

/-! ## Cohorts -/

/-- The sessions that closed the round of a cohort heard all of it, and the cohort has the
latencies of what closed it. -/
structure TimesRound (parseReferenceTimeMs : String → Option Nat) (config : BenchmarkConfig)
    (coin : String) (cohort : CommittedCohort) (round : Nat) (source : Provider → ClosedRound) :
    Prop where
  key : ∀ provider ∈ config.providers, (source provider).event.provider = provider ∧
    (source provider).event.key =
      { coin := coin, eventMs := cohort.eventMs, content := .peering round }
  heard : ∀ provider ∈ config.providers, HeardRound parseReferenceTimeMs (source provider).openedMs
    (source provider).entries (source provider).event round
  timed : ∀ provider ∈ config.providers, cohort.eventMs ≤ (source provider).event.receivedWallMs ∧
    cohort.latencyMs provider = (source provider).event.receivedWallMs - cohort.eventMs
  close : ∀ first ∈ config.providers, ∀ second ∈ config.providers,
    (source first).event.received < (source second).event.received + config.cohortTimeout

variable {config : BenchmarkConfig} {tasks : List StreamTask} {startedAt startedWallMs : Nat}
  {actions : List PeeredAction} {final : PeeredCollector}

theorem sound_of_run
    (reached : run (step libraries) (start config tasks startedAt startedWallMs) actions =
      some final) :
    Sound libraries.parseReferenceTimeMs (.start config tasks startedAt startedWallMs) final := by
  refine run_preserves (Sound libraries.parseReferenceTimeMs _)
    (fun _ _ _ sound stepped => sound.step stepped)
    ⟨.start config tasks startedAt startedWallMs _, fun index leg openedMs entries reading => ?_⟩
    reached
  cases reading

/--
In every run, whatever the peers send and however their sessions interleave, a
cohort in a ring times one round of the chain: every active provider has a
session that heard all of the round, the cohort has the time that the reference
feed gives the round and the latencies of what closed it, and no two closings
are a cohort timeout apart.
-/
theorem cohorts_time_one_round
    (reached : run (step libraries) (start config tasks startedAt startedWallMs) actions =
      some final) {coin : String} {cohort : CommittedCohort}
    (member : cohort ∈ (final.collector.benchmark.windows coin).cohorts) :
    ∃ round source,
      TimesRound libraries.parseReferenceTimeMs config coin cohort round source ∧
        ∀ provider ∈ config.providers, source provider ∈ final.closed := by
  obtain ⟨key, arrival, sources, closes⟩ := (sound_of_run reached).under.sources member
  have exists_closed : ∀ provider, ∃ closed : ClosedRound, provider ∈ config.providers →
      closed ∈ final.closed ∧ closed.event = arrival provider ∧
        ∃ round, closed.Heard libraries.parseReferenceTimeMs round := by
    intro provider
    by_cases active : provider ∈ config.providers
    · obtain ⟨closed, isClosed, rest⟩ := closes provider active
      exact ⟨closed, fun _ => ⟨isClosed, rest⟩⟩
    · exact ⟨⟨arrival provider, 0, []⟩, fun isActive => absurd isActive active⟩
  choose source closing using exists_closed
  have sameKey : ∀ provider ∈ config.providers, (source provider).event.key = key := by
    intro provider active
    rw [(closing provider active).2.1]
    exact (sources.key provider active).2
  -- the content of the one key is the round of every session
  obtain ⟨_, _, round, content, _⟩ := closing _ config.referenceProvider_mem
  rw [sameKey _ config.referenceProvider_mem] at content
  refine ⟨round, source, ⟨?_, ?_, ?_, ?_⟩, fun provider active => (closing provider active).1⟩
  · intro provider active
    rw [sameKey provider active, (closing provider active).2.1, sources.eventMs, ← sources.coin,
      ← content]
    exact ⟨(sources.key provider active).1, rfl⟩
  · intro provider active
    obtain ⟨_, _, other, otherContent, heard⟩ := closing provider active
    rw [sameKey provider active, content] at otherContent
    cases otherContent
    exact heard
  · intro provider active
    rw [(closing provider active).2.1]
    exact sources.timed provider active
  · intro first isFirst second isSecond
    rw [(closing first isFirst).2.1, (closing second isSecond).2.1]
    exact sources.close first isFirst second isSecond

/-- A process beside the node that compares its decoded leg with a dialed one. -/
def roundsProcess : BenchmarkConfig :=
  { BenchmarkConfig.production .peering ["BTC"] "aws" "nrt" "nrt" "aws-nrt-01" "run" with
    rollingWindow := 1000
    cohortTimeout := 10
    vpcLocal := true }

def roundsTasks : List StreamTask :=
  [{ kind := .vpcDecoded, provider := .quickNodeVpc, coin := "BTC" },
    { kind := .peering, provider := .quickNodePeeringTcp, coin := "BTC" }]

/-- Blocks are not compressed, and every line is the block of round 101. -/
def roundsLibraries : LegLibraries where
  decompress := Tap.plainBlock
  parseReferenceTimeMs := fun _ => some 60000
  decodedLine := fun _ =>
    some { kind := "block", round := 101, complete := true, signedActionBundles := ["0x1"] }

/-- The line of round 101, which has one bundle. -/
def roundsLine : ReferenceLine where
  r := 101
  t := ""
  b := [("0x01", some "0x0", 1)]

/-- A bundle frame whose one record starts with the signature zero. -/
def bundleChunk : Slice where
  bytes := [0, 0, 0, 36, 0] ++ [1, 0, 0x91, 32] ++ List.replicate 32 0
  short := by decide +kernel

/-- A data frame with the ordering record of round 101. -/
def orderingChunk : Slice where
  bytes := [0, 0, 0, 89, 1] ++ [85, 0, 0, 0] ++ List.replicate 10 0 ++ List.replicate 20 1 ++
    1 :: sampleHash.toList ++ sampleTail 100
  short := by decide +kernel

/-- Input of a leg at an instant. -/
def wake (index : Nat) (input : LegInput) (instant : Nat) : PeeredAction :=
  .turn index input .stored instant (60000 + instant)

/-- Both legs are opened a minute before the round and hear of it. -/
def roundsActions : List PeeredAction :=
  [.loop (.dial 0 0), .loop (.dial 1 0), .opened 0 0 0 0, .opened 1 0 0 0,
    wake 0 (.reference roundsLine 1) 1, wake 1 (.reference roundsLine 1) 1,
    wake 0 (.line [] 2 60002) 2, wake 1 (.read bundleChunk 3 60003 fun _ => 3) 3,
    wake 1 (.read orderingChunk 5 60005 fun _ => 5) 5, .loop (.receive .stored),
    .loop (.receive .stored), .loop (.tick .stored 20)]

theorem cohorts_time_one_round_local :
    ∃ final cohort, run (step roundsLibraries) (start roundsProcess roundsTasks 0 0)
        roundsActions = some final ∧
      (final.collector.benchmark.windows "BTC").cohorts = [cohort] ∧
      ∃ round source, TimesRound roundsLibraries.parseReferenceTimeMs roundsProcess "BTC" cohort
          round source ∧
        ∀ provider ∈ roundsProcess.providers, source provider ∈ final.closed := by
  have observed : (run (step roundsLibraries) (start roundsProcess roundsTasks 0 0)
      roundsActions).map
        (fun final => (final.collector.benchmark.windows "BTC").cohorts.length) = some 1 := by
    decide +kernel
  obtain ⟨final, reached, count⟩ := Option.map_eq_some_iff.mp observed
  obtain ⟨cohort, ring⟩ := List.length_eq_one_iff.mp count
  refine ⟨final, cohort, reached, ring, cohorts_time_one_round reached ?_⟩
  rw [ring]
  exact List.mem_singleton_self cohort

end PeeredCollector

end MarketBenchmark
