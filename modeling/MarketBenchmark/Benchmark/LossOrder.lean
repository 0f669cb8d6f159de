import MarketBenchmark.Benchmark.Containers
import MarketBenchmark.Benchmark.Registration

/-!
# The order of losses

A loss overwrites the last loss of its coin, whatever the two instants.  The instants
come from three clocks: the `now` of a settlement, the receipt of an event, and, where
a settled key is pushed out, the latest arrival of the cohort that takes its place.
Which coin a call stamps with which instants is known before the call, and this file
shows that nothing else counts: as long as the last stamp that a call places on a coin
is its latest loss, every loss so far is remembered, and a publication within the
rolling window of any of them is incomplete.  Without the condition an event with an
early receipt undoes a later loss.
-/

namespace MarketBenchmark

open Foundation.HashMaps
open Foundation.Runs

/-! ## Remembered losses -/

namespace CoinWindow

/-- The last loss is no earlier than any of the losses. -/
def Recorded (window : CoinWindow) : Prop :=
  ∀ loss ∈ window.losses, ∃ lost, window.lastIntegrityLoss = some lost ∧ loss ≤ lost

/-- The last loss is the one that was logged last. -/
def Logged (window : CoinWindow) : Prop :=
  window.lastIntegrityLoss = window.losses.head?

variable {before after : CoinWindow} {stamps : List Nat}

theorem Logged.advance (logged : before.Logged)
    (losses : after.losses = stamps.reverse ++ before.losses)
    (last : after.lastIntegrityLoss = stamps.getLast?.or before.lastIntegrityLoss) :
    after.Logged := by
  unfold Logged at logged ⊢
  rw [last, losses, logged, List.head?_append, List.head?_reverse]

/-- A window that remembers its losses remembers the new ones exactly when the last of
them is the latest. -/
theorem recorded_iff (logged : before.Logged) (recorded : before.Recorded)
    (losses : after.losses = stamps.reverse ++ before.losses)
    (last : after.lastIntegrityLoss = stamps.getLast?.or before.lastIntegrityLoss) :
    after.Recorded ↔ ∀ newest ∈ stamps.getLast?,
      (∀ stamp ∈ stamps, stamp ≤ newest) ∧
        ∀ lost ∈ before.lastIntegrityLoss, lost ≤ newest := by
  constructor
  · intro remembered newest isNewest
    have isLast : after.lastIntegrityLoss = some newest := by
      rw [last, Option.mem_def.mp isNewest]
      rfl
    have covers : ∀ loss ∈ after.losses, loss ≤ newest := by
      intro loss member
      obtain ⟨lost, same, le⟩ := remembered loss member
      cases Option.some.inj (isLast.symm.trans same)
      exact le
    rw [losses] at covers
    refine ⟨fun stamp member => ?_, fun lost isLost => ?_⟩
    · exact covers stamp (List.mem_append_left _ (List.mem_reverse.mpr member))
    · refine covers lost (List.mem_append_right _ ?_)
      exact List.mem_of_mem_head? (logged.symm.trans isLost)
  · intro inOrder loss member
    rw [losses] at member
    cases isNewest : stamps.getLast? with
    | none =>
        rw [List.getLast?_eq_none_iff.mp isNewest] at member
        rw [last, isNewest]
        exact recorded loss member
    | some newest =>
        obtain ⟨own, old⟩ := inOrder newest isNewest
        refine ⟨newest, by rw [last, isNewest]; rfl, ?_⟩
        rcases List.mem_append.mp member with new | before
        · exact own loss (List.mem_reverse.mp new)
        · obtain ⟨lost, isLost, le⟩ := recorded loss before
          exact le.trans (old lost isLost)

end CoinWindow

namespace Benchmark

variable {order : IterationOrder} {benchmark : Benchmark}

/-- Every coin remembers its losses. -/
def RecordedAll (benchmark : Benchmark) : Prop :=
  ∀ coin, (benchmark.windows coin).Recorded

def LoggedAll (benchmark : Benchmark) : Prop :=
  ∀ coin, (benchmark.windows coin).Logged

theorem loggedAll_new (config : BenchmarkConfig) (startedAt startedWallMs : Nat) :
    (Benchmark.new config startedAt startedWallMs).LoggedAll :=
  fun _ => show CoinWindow.Logged {} from rfl

theorem recordedAll_new (config : BenchmarkConfig) (startedAt startedWallMs : Nat) :
    (Benchmark.new config startedAt startedWallMs).RecordedAll :=
  fun _ loss member => absurd (show loss ∈ [] from member) List.not_mem_nil

/-- The last stamp that the call places on a coin is no earlier than its other stamps on
the coin, and than the last loss of the coin before the call. -/
def StampsInOrder (benchmark : Benchmark) (call : Call) : Prop :=
  ∀ coin, ∀ newest ∈ (benchmark.stampsOn call coin).getLast?,
    (∀ stamp ∈ benchmark.stampsOn call coin, stamp ≤ newest) ∧
      ∀ lost ∈ (benchmark.windows coin).lastIntegrityLoss, lost ≤ newest

/-- Only the coins that the call stamps matter. -/
theorem stampsInOrder_iff_of_stamps {call : Call} :
    benchmark.StampsInOrder call ↔ ∀ mark ∈ benchmark.stamps call,
      ∀ newest ∈ (benchmark.stampsOn call mark.1).getLast?,
        (∀ stamp ∈ benchmark.stampsOn call mark.1, stamp ≤ newest) ∧
          ∀ lost ∈ (benchmark.windows mark.1).lastIntegrityLoss, lost ≤ newest := by
  refine ⟨fun inOrder mark _ => inOrder mark.1, fun inOrder coin newest isNewest => ?_⟩
  obtain ⟨mark, kept, _⟩ := List.mem_map.mp (List.mem_of_getLast? isNewest)
  obtain ⟨member, own⟩ := List.mem_filter.mp kept
  cases of_decide_eq_true own
  exact inOrder mark member newest isNewest

instance (call : Call) : Decidable (benchmark.StampsInOrder call) :=
  decidable_of_iff _ stampsInOrder_iff_of_stamps.symm

theorem LoggedAll.step {call : Call} {after : Benchmark} (logged : benchmark.LoggedAll)
    (stepped : benchmark.step call = some after) : after.LoggedAll := by
  intro coin
  obtain ⟨losses, last⟩ := stampsOn_step benchmark stepped coin
  exact (logged coin).advance losses last

/-- Which calls keep all losses remembered. -/
theorem recordedAll_step_iff {call : Call} {after : Benchmark} (logged : benchmark.LoggedAll)
    (recorded : benchmark.RecordedAll) (stepped : benchmark.step call = some after) :
    after.RecordedAll ↔ benchmark.StampsInOrder call := by
  refine forall_congr' fun coin => ?_
  obtain ⟨losses, last⟩ := stampsOn_step benchmark stepped coin
  exact CoinWindow.recorded_iff (logged coin) (recorded coin) losses last

/-- No call forgets that a loss was logged. -/
theorem mem_losses_step {call : Call} {after : Benchmark}
    (stepped : benchmark.step call = some after) {coin : String} {loss : Nat}
    (member : loss ∈ (benchmark.windows coin).losses) : loss ∈ (after.windows coin).losses := by
  rw [(stampsOn_step benchmark stepped coin).1]
  exact List.mem_append_right _ member

theorem mem_losses_run {calls : List Call} {origin final : Benchmark}
    (executed : run step origin calls = some final) {coin : String} {loss : Nat}
    (member : loss ∈ (origin.windows coin).losses) : loss ∈ (final.windows coin).losses :=
  run_preserves (fun state => loss ∈ (state.windows coin).losses)
    (fun _ _ _ held stepped => mem_losses_step stepped held) member executed

/-! ## Rows within the window of a loss -/

/-- The rows of a publication show the windows that it leaves. -/
theorem mem_windowEvents {now wallNowMs : Nat} {signals : RuntimeSignals}
    {clock : ClockHealthSnapshot} {after : Benchmark} {rows : List LatencyWindowEvent}
    (prepared : benchmark.windowEvents order now wallNowMs signals clock = some (after, rows))
    {row : LatencyWindowEvent} (member : row ∈ rows) :
    ∃ (ticked : Benchmark) (wallMs : Nat) (coin : String) (provider : Provider),
      ticked.config = benchmark.config ∧ ticked.windows = after.windows ∧
      row = ticked.windowEvent now wallNowMs wallMs signals (clock.assess wallNowMs) coin
        provider := by
  unfold windowEvents at prepared
  dsimp only at prepared
  split_ifs at prepared with zero stale
  · cases prepared
    cases member
  · obtain ⟨sameAfter, sameRows⟩ := Prod.mk.inj (Option.some.inj prepared)
    rw [← sameRows] at member
    obtain ⟨coin, _, ofCoin⟩ := List.mem_flatMap.mp member
    obtain ⟨provider, _, same⟩ := List.mem_map.mp ofCoin
    refine ⟨_, _, coin, provider, ?_, ?_, same.symm⟩
    · exact tick_config order (benchmark.withPrepared none) now
    · rw [← sameAfter]

theorem stateIntegrityComplete_eq_false {coin : String} {now loss lost : Nat}
    (last : (benchmark.windows coin).lastIntegrityLoss = some lost) (le : loss ≤ lost)
    (recent : now - loss ≤ benchmark.config.rollingWindow) :
    benchmark.stateIntegrityComplete coin now = false := by
  unfold stateIntegrityComplete
  rw [last]
  refine decide_eq_false ?_
  omega

/-- A row within the rolling window of the last loss is incomplete. -/
theorem windowEvent_incomplete {coin : String} {provider : Provider} {now wallNowMs wallMs : Nat}
    {signals : RuntimeSignals} {clock : ClockAssessment}
    (lossy : benchmark.stateIntegrityComplete coin now = false) :
    (benchmark.windowEvent now wallNowMs wallMs signals clock coin provider).cohortComplete =
        false ∧
      (benchmark.windowEvent now wallNowMs wallMs signals clock coin
        provider).outcomeIntervalComplete = false := by
  have unhealthy : benchmark.cohortHealthComplete coin now wallNowMs signals clock = false := by
    unfold cohortHealthComplete integrityComplete
    rw [lossy]
    rfl
  unfold windowEvent
  dsimp only
  rw [unhealthy, Bool.and_false]
  exact ⟨rfl, rfl⟩

section Runs

variable {config : BenchmarkConfig} {startedAt startedWallMs : Nat} {calls : List Call}
  {final : Benchmark}

theorem loggedAll_run (executed : run step (Benchmark.new config startedAt startedWallMs) calls =
    some final) : final.LoggedAll :=
  run_preserves LoggedAll (fun _ _ _ held stepped => held.step stepped)
    (loggedAll_new config startedAt startedWallMs) executed

/-- In a run that stamps in order every state remembers all losses so far. -/
theorem recordedAll_along_iff
    (executed : run step (Benchmark.new config startedAt startedWallMs) calls = some final) :
    StepsMeet step StampsInOrder (Benchmark.new config startedAt startedWallMs) calls ↔
      ∀ reached state, reached <+: calls →
        run step (Benchmark.new config startedAt startedWallMs) reached = some state →
        state.RecordedAll := by
  have along := holds_along_iff (fun state : Benchmark => state.LoggedAll ∧ state.RecordedAll)
    (fun _ _ _ held stepped => (and_iff_right (held.1.step stepped)).trans
      (recordedAll_step_iff held.1 held.2 stepped))
    ⟨loggedAll_new config startedAt startedWallMs, recordedAll_new config startedAt startedWallMs⟩
    executed
  refine along.symm.trans (forall₂_congr fun reached state => ?_)
  refine forall₂_congr fun _ toState => ?_
  exact and_iff_right (loggedAll_run toState)

/--
The calls of a run stamp in order exactly when every loss so far is remembered in every
state of the run, the last loss of a coin never moves back on the way, and no publication
within the rolling window of a loss is complete.
-/
theorem losses_recorded_iff
    (executed : run step (Benchmark.new config startedAt startedWallMs) calls = some final) :
    StepsMeet step StampsInOrder (Benchmark.new config startedAt startedWallMs) calls ↔
    (∀ reached state, reached <+: calls →
      run step (Benchmark.new config startedAt startedWallMs) reached = some state →
      ∀ coin, ∀ loss ∈ (state.windows coin).losses,
        ∃ lost, (state.windows coin).lastIntegrityLoss = some lost ∧ loss ≤ lost) ∧
    (∀ earlier later middle state, earlier ++ later <+: calls →
      run step (Benchmark.new config startedAt startedWallMs) earlier = some middle →
      run step middle later = some state →
      ∀ coin lost, (middle.windows coin).lastIntegrityLoss = some lost →
        ∃ last, (state.windows coin).lastIntegrityLoss = some last ∧ lost ≤ last) ∧
    ∀ earlier order now wallNowMs signals clock state after rows,
      earlier ++ [.windowEvents order now wallNowMs signals clock] <+: calls →
      run step (Benchmark.new config startedAt startedWallMs) earlier = some state →
      state.windowEvents order now wallNowMs signals clock = some (after, rows) →
      ∀ row ∈ rows, ∀ loss ∈ (after.windows row.coin).losses,
        now - loss ≤ config.rollingWindow →
        row.cohortComplete = false ∧ row.outcomeIntervalComplete = false := by
  rw [recordedAll_along_iff executed]
  refine ⟨fun recorded => ⟨recorded, ?_, ?_⟩, fun all => all.1⟩
  · intro earlier later middle state within toMiddle toState coin lost isLast
    have reached : run step (Benchmark.new config startedAt startedWallMs) (earlier ++ later) =
        some state := by
      rw [run_append, toMiddle]
      exact toState
    have member : lost ∈ (middle.windows coin).losses :=
      List.mem_of_mem_head? ((loggedAll_run toMiddle coin).symm.trans isLast)
    exact recorded (earlier ++ later) state within reached coin lost
      (mem_losses_run toState member)
  · intro earlier order now wallNowMs signals clock state after rows within reached prepared
      row rowMember loss member recent
    have stepped : state.step (.windowEvents order now wallNowMs signals clock) = some after :=
      Option.map_eq_some_iff.mpr ⟨_, prepared, rfl⟩
    have remembered := recorded _ after within (run_concat_of_step reached stepped)
    obtain ⟨ticked, wallMs, coin, provider, sameConfig, sameWindows, sameRow⟩ :=
      mem_windowEvents prepared rowMember
    have sameCoin : row.coin = coin := congrArg LatencyWindowEvent.coin sameRow
    rw [sameCoin] at member
    obtain ⟨lost, isLast, le⟩ := remembered coin loss member
    rw [← sameWindows] at isLast
    have fromNew : state.config = config := run_config reached
    rw [← fromNew, ← sameConfig] at recent
    rw [sameRow]
    exact windowEvent_incomplete (stateIntegrityComplete_eq_false isLast le recent)

end Runs

/-! ## Sample runs -/

/-- A quote from the future, received at the given instant. -/
def futureQuote (received : Nat) : MarketEvent :=
  { quote .foundationWs "7" received with receivedWallMs := 0 }

/-- A process of two coins whose tombstones have room for one base and one key. -/
def crowdedProcess : BenchmarkConfig :=
  { bookProcess with coins := ["BTC", "ETH"], maxSettled := 1 }

/-- The tick settles a base of either coin, and the second one pushes out the first, which
stamps that coin alone.  The quote from the future stamps the other coin, earlier. -/
def crowdedCalls : List Call :=
  [recordQuote .foundationWs "7" 0,
    .record .stored (.market { quote .foundationWs "7" 2 with
      key := { (quote .foundationWs "7" 2).key with coin := "ETH" } }),
    .tick .stored 20, .record .stored (.market (futureQuote 5))]

def publishCrowded : Call :=
  .windowEvents .stored 30 60000 (liveSignals 60000) (soundClock 60000)

theorem losses_recorded_crowded :
    ∃ state after rows, run step (Benchmark.new crowdedProcess 0 0) crowdedCalls = some state ∧
      (state.windows "BTC").losses = [5] ∧ (state.windows "ETH").losses = [20, 20] ∧
      state.windowEvents .stored 30 60000 (liveSignals 60000) (soundClock 60000) =
        some (after, rows) ∧
      rows.map LatencyWindowEvent.coin = ["BTC", "BTC", "BTC", "ETH", "ETH", "ETH"] ∧
      ∀ row ∈ rows, row.cohortComplete = false ∧ row.outcomeIntervalComplete = false := by
  have stamped : (run step (Benchmark.new crowdedProcess 0 0) crowdedCalls).map
      (fun state => ((state.windows "BTC").losses, (state.windows "ETH").losses)) =
      some ([5], [20, 20]) := by decide +kernel
  have published : ((run step (Benchmark.new crowdedProcess 0 0) crowdedCalls).bind fun state =>
      state.windowEvents .stored 30 60000 (liveSignals 60000) (soundClock 60000)).map
      (fun prepared => prepared.2.map LatencyWindowEvent.coin) =
      some ["BTC", "BTC", "BTC", "ETH", "ETH", "ETH"] := by decide +kernel
  have inOrder : StepsMeet step StampsInOrder (Benchmark.new crowdedProcess 0 0)
      (crowdedCalls ++ [publishCrowded]) := by decide +kernel
  obtain ⟨state, executed, losses⟩ := Option.map_eq_some_iff.mp stamped
  obtain ⟨ofBtc, ofEth⟩ := Prod.mk.inj losses
  obtain ⟨⟨after, rows⟩, prepared, coins⟩ := Option.map_eq_some_iff.mp published
  rw [executed] at prepared
  have stepped : state.step publishCrowded = some after :=
    Option.map_eq_some_iff.mpr ⟨_, prepared, rfl⟩
  obtain ⟨_, _, incomplete⟩ :=
    (losses_recorded_iff (run_concat_of_step executed stepped)).mp inOrder
  refine ⟨state, after, rows, executed, ofBtc, ofEth, prepared, coins, fun row member => ?_⟩
  have row_incomplete := incomplete crowdedCalls .stored 30 60000 (liveSignals 60000)
    (soundClock 60000) state after rows (List.prefix_refl _) executed prepared row member
  have ofCoin : row.coin ∈ rows.map LatencyWindowEvent.coin := List.mem_map_of_mem member
  have either : row.coin = "BTC" ∨ row.coin = "ETH" := by
    rw [coins] at ofCoin
    simpa using ofCoin
  rcases either with isBtc | isEth
  · refine row_incomplete 5 (mem_losses_step stepped ?_) (by decide)
    rw [isBtc, ofBtc]
    exact List.mem_singleton_self 5
  · refine row_incomplete 20 (mem_losses_step stepped ?_) (by decide)
    rw [isEth, ofEth]
    exact List.mem_cons_self

/-- Two rejected quotes, the later one first, and then a complete cohort. -/
def reorderedQuotes : List Call :=
  [.record .stored (.market (futureQuote 100)), .record .stored (.market (futureQuote 50)),
    recordQuote .foundationWs "7" 900, recordQuote .quickNodeGrpc "7" 903,
    recordQuote .hydromancerWs "7" 905]

/-- The second quote undoes the loss of the first, and the window that holds both is
published as complete. -/
theorem loss_undone :
    ∃ lossy undone state after rows,
      run step (Benchmark.new bookProcess 0 0) (reorderedQuotes.take 1) = some lossy ∧
      (lossy.windows "BTC").lastIntegrityLoss = some 100 ∧
      run step (Benchmark.new bookProcess 0 0) (reorderedQuotes.take 2) = some undone ∧
      (undone.windows "BTC").lastIntegrityLoss = some 50 ∧
      run step (Benchmark.new bookProcess 0 0) reorderedQuotes = some state ∧
      state.windowEvents .stored 1060 60000 (liveSignals 60000) (soundClock 60000) =
        some (after, rows) ∧
      1060 - 100 ≤ bookProcess.rollingWindow ∧
      ∃ row ∈ rows, row.coin = "BTC" ∧ row.cohortComplete = true := by
  have first : (run step (Benchmark.new bookProcess 0 0) (reorderedQuotes.take 1)).map
      (fun state => (state.windows "BTC").lastIntegrityLoss) = some (some 100) := by decide
  have second : (run step (Benchmark.new bookProcess 0 0) (reorderedQuotes.take 2)).map
      (fun state => (state.windows "BTC").lastIntegrityLoss) = some (some 50) := by decide
  have published : ((run step (Benchmark.new bookProcess 0 0) reorderedQuotes).bind fun state =>
      state.windowEvents .stored 1060 60000 (liveSignals 60000) (soundClock 60000)).map
      (fun prepared => prepared.2.any fun row =>
        decide (row.coin = "BTC") && row.cohortComplete) = some true := by decide +kernel
  obtain ⟨lossy, executedFirst, lost⟩ := Option.map_eq_some_iff.mp first
  obtain ⟨undone, executedSecond, undoneLost⟩ := Option.map_eq_some_iff.mp second
  obtain ⟨⟨after, rows⟩, prepared, complete⟩ := Option.map_eq_some_iff.mp published
  obtain ⟨state, executed, prepared⟩ := Option.bind_eq_some_iff.mp prepared
  obtain ⟨row, member, both⟩ := List.any_eq_true.mp complete
  obtain ⟨ofCoin, isComplete⟩ := Bool.and_eq_true_iff.mp both
  exact ⟨lossy, undone, state, after, rows, executedFirst, lost, executedSecond, undoneLost,
    executed, prepared, by decide, row, member, of_decide_eq_true ofCoin, isComplete⟩

end Benchmark

end MarketBenchmark
