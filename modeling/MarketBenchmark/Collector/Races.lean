import MarketBenchmark.Collector.Offers

/-!
# A complete cohort races one fact

A collector with its sessions takes the actions of the collector, so all that
holds of the one holds of the other.  What its main loop records was sent in the
turn of a task, for a message that tells the fact behind the recorded key.  The
arrivals of a complete cohort therefore time one book, or one trade, at every
active provider.
-/

namespace MarketBenchmark

open Feeds
open Foundation.Channels
open Foundation.HashMaps
open Foundation.Runs

variable {decimals : Decimals} {serde : Serde Json} {dataset : Dataset}

/-! ## The events of a turn -/

/-- An event that a task may send in a turn: no reconnect, and a market event only for a message
that tells its fact, with the provider, the coin and the clocks of the turn. -/
structure Sendable (decimals : Decimals) (serde : Serde Json) (task : StreamTask)
    (clock : TurnClock) (wake : Wake) (event : ProbeEvent) : Prop where
  notReconnect : ∀ provider coin, event ≠ .reconnect provider coin
  market : ∀ market, event = .market market → ∃ message, wake = .message message ∧
    Names decimals serde message market.key ∧ market.provider = task.stamp ∧
    market.key.coin = task.coin ∧ market.received = clock.received ∧
    market.receivedWallMs = clock.receivedWallMs

variable {task : StreamTask} {session after : Session} {clock : TurnClock} {wake : Wake}
  {order : IterationOrder} {connects : Bool} {events : List ProbeEvent}

theorem sendable_of_tell {provider : Provider} {message : Message} {keys : List EventKey}
    (stamped : provider = task.stamp) (names : ∀ key ∈ keys, Names decimals serde message key)
    (told : session.tell provider task.coin clock keys = .goesOn after connects events) :
    ∀ event ∈ events, Sendable decimals serde task clock (.message message) event := by
  cases told
  intro event member
  obtain ⟨key, kept, rfl⟩ := List.mem_map.mp member
  obtain ⟨isKey, own⟩ := List.mem_filter.mp kept
  refine ⟨fun _ _ => ProbeEvent.noConfusion, fun market same => ?_⟩
  cases same
  exact ⟨message, rfl, names key isKey, stamped, of_decide_eq_true own, rfl, rfl⟩

theorem sendable_nil :
    ∀ event ∈ ([] : List ProbeEvent), Sendable decimals serde task clock wake event :=
  fun _ member => absurd member List.not_mem_nil

theorem beat_events (beats : session.beat clock.now = .goesOn after connects events) :
    events = [] := by
  unfold Session.beat at beats
  split_ifs at beats
  cases beats
  rfl

/-- What a book of Hydromancer's makes the loop send. -/
theorem mem_onBook {coin : String} {connection : HydromancerConnection} {parsed : ParsedWsBook}
    {received receivedWallMs : Nat} {event : ProbeEvent}
    (member : event ∈ (connection.onBook coin parsed received receivedWallMs).2) :
    (∃ missing, event = .sequenceGap .hydromancerWs coin missing) ∨
      event = .market
        { provider := .hydromancerWs
          key := parsed.key
          received := received
          receivedWallMs := receivedWallMs } := by
  have gap : ∀ {next gaps}, connection.advance coin parsed.seq = some (next, gaps) →
      event ∈ gaps → ∃ missing, event = .sequenceGap .hydromancerWs coin missing := by
    intro next gaps advanced isGap
    unfold HydromancerConnection.advance at advanced
    split at advanced
    · cases advanced
      exact absurd isGap List.not_mem_nil
    · split at advanced
      · cases advanced
      · cases advanced
        exact ⟨_, List.mem_singleton.mp (List.mem_ite_nil_right.mp isGap).2⟩
  unfold HydromancerConnection.onBook at member
  cases advanced : connection.advance coin parsed.seq with
  | none =>
      rw [advanced] at member
      exact absurd member List.not_mem_nil
  | some result =>
      obtain ⟨next, gaps⟩ := result
      rw [advanced] at member
      dsimp only at member
      split at member
      · exact Or.inl (gap advanced member)
      · rcases List.mem_append.mp member with isGap | isMarket
        · exact Or.inl (gap advanced isGap)
        · exact Or.inr (List.mem_singleton.mp isMarket)

theorem sendable_foundation (prints : decimals.PrintsBack) (kind : task.kind = .foundation)
    (turned : foundationTurn decimals serde dataset task.coin session clock wake =
      some (.goesOn after connects events)) :
    ∀ event ∈ events, Sendable decimals serde task clock wake event := by
  have stamped : Provider.foundationWs = task.stamp := by rw [StreamTask.stamp, kind]
  cases wake with
  | heartbeat => exact beat_events (Option.some.inj turned) ▸ sendable_nil
  | elapsed => cases turned
  | ignored =>
      cases turned
      exact sendable_nil
  | message message =>
      cases message with
      | frame frame =>
          dsimp only [foundationTurn] at turned
          split at turned
          · cases turned
          · refine sendable_of_tell stamped (fun key member => ?_) (Option.some.inj turned)
            unfold foundationKeys at member
            split at member
            · exact parseWsTrades_names member
            · obtain ⟨parsed, read, rfl⟩ :=
                Option.map_eq_some_iff.mp (Option.mem_toList.mp member)
              exact parseWsBook_names prints read
      | bbo update | l2 update | block payload => cases turned

theorem sendable_hydromancer (prints : decimals.PrintsBack) (kind : task.kind = .hydromancer)
    (turned : hydromancerTurn decimals serde dataset task.coin session clock wake =
      some (.goesOn after connects events)) :
    ∀ event ∈ events, Sendable decimals serde task clock wake event := by
  have stamped : Provider.hydromancerWs = task.stamp := by rw [StreamTask.stamp, kind]
  cases wake with
  | heartbeat => exact beat_events (Option.some.inj turned) ▸ sendable_nil
  | elapsed => cases turned
  | ignored =>
      cases turned
      exact sendable_nil
  | message message =>
      cases message with
      | frame frame =>
          dsimp only [hydromancerTurn] at turned
          split at turned
          · cases turned
          next connection sent handled =>
            obtain ⟨_, rfl⟩ : connects = _ ∧ events = sent := by
              cases turned
              exact ⟨rfl, rfl⟩
            intro event member
            cases messageCase handled with
            | silent => exact absurd member List.not_mem_nil
            | replay =>
                cases List.mem_singleton.mp member
                exact ⟨fun _ _ => ProbeEvent.noConfusion, fun _ => ProbeEvent.noConfusion⟩
            | rejected => exact absurd member List.not_mem_nil
            | @admitted parsed _ isBook _ =>
                rcases mem_onBook member with ⟨missing, rfl⟩ | rfl
                · exact ⟨fun _ _ => ProbeEvent.noConfusion, fun _ => ProbeEvent.noConfusion⟩
                · refine ⟨fun _ _ => ProbeEvent.noConfusion, fun market same => ?_⟩
                  cases same
                  have isBook : frame.admitted decimals serde dataset task.coin = some parsed :=
                    isBook
                  unfold HydromancerFrame.admitted at isBook
                  split at isBook
                  · obtain ⟨read, own⟩ := Option.filter_eq_some_iff.mp isBook
                    exact ⟨_, rfl, parseWsBook_names prints read, stamped,
                      of_decide_eq_true own, rfl, rfl⟩
                  · cases isBook
      | bbo update | l2 update | block payload => cases turned

theorem sendable_quicknode (prints : decimals.PrintsBack) (kind : task.kind = .quicknode)
    (turned : quicknodeTurn decimals serde dataset task.coin order task.provider session clock
      wake = some (.goesOn after connects events)) :
    ∀ event ∈ events, Sendable decimals serde task clock wake event := by
  have stamped : task.provider = task.stamp := by rw [StreamTask.stamp, kind]
  unfold quicknodeTurn at turned
  split at turned
  · refine sendable_of_tell stamped (fun key member => ?_) (Option.some.inj turned)
    exact (quicknodeBboKey_names prints (Option.mem_toList.mp member)).2
  · refine sendable_of_tell stamped (fun key member => ?_) (Option.some.inj turned)
    exact (quicknodeL2Key_names prints (Option.mem_toList.mp member)).2
  · split at turned <;> cases turned
  · split at turned <;> cases turned
  · exact beat_events (Option.some.inj turned) ▸ sendable_nil
  · cases turned
    exact sendable_nil
  · exact sendable_of_tell stamped (fun key => parseQuicknodeFillBatch_names prints)
      (Option.some.inj turned)
  · cases turned

theorem sendable_vpcFills (prints : decimals.PrintsBack) (kind : task.kind = .vpcFills)
    (turned : vpcFillsTurn decimals serde task.coin order session clock wake =
      some (.goesOn after connects events)) :
    ∀ event ∈ events, Sendable decimals serde task clock wake event := by
  have stamped : Provider.quickNodeVpc = task.stamp := by rw [StreamTask.stamp, kind]
  unfold vpcFillsTurn at turned
  split at turned
  · cases turned
    exact sendable_nil
  · exact sendable_of_tell stamped (fun key => parseQuicknodeFillBatch_names prints)
      (Option.some.inj turned)
  · cases turned

/-- What a task sends in a turn is sendable. -/
theorem sendable_of_turn (prints : decimals.PrintsBack)
    (turned : task.turn decimals serde dataset order session clock wake =
      some (.goesOn after connects events)) :
    ∀ event ∈ events, Sendable decimals serde task clock wake event := by
  unfold StreamTask.turn at turned
  split at turned
  next kind => exact sendable_foundation prints kind turned
  next kind => exact sendable_hydromancer prints kind turned
  next kind => exact sendable_quicknode prints kind turned
  next kind => exact sendable_vpcFills prints kind turned
  next => cases turned

/-! ## The collector with its sessions -/

/-- The message that was heard tells the fact of the event, with the stream and the clocks of the
event. -/
structure Heard.Brings (decimals : Decimals) (serde : Serde Json) (heard : Heard)
    (market : MarketEvent) : Prop where
  stream : heard.stream = (market.provider, market.key.coin)
  names : Names decimals serde heard.message market.key
  received : heard.received = market.received
  receivedWallMs : heard.receivedWallMs = market.receivedWallMs

namespace FedCollector

variable {fed next : FedCollector}

/-- A message that was heard brings the event. -/
def Told (decimals : Decimals) (serde : Serde Json) (fed : FedCollector) (market : MarketEvent) :
    Prop :=
  ∃ heard ∈ fed.heard, heard.Brings decimals serde market

/-- What an action of the sessions does to the collector: it offers only what was heard. -/
structure Follows (decimals : Decimals) (serde : Serde Json) (fed next : FedCollector) : Prop where
  collector : fed.collector.Advances next.collector (Told decimals serde next)
  heard : fed.heard <+: next.heard

/-- One action of the collector that is no send. -/
theorem Follows.one {action : Action} (stepped : fed.collector.step action = some next.collector)
    (notSend : ∀ event nowMs, action ≠ .send event nowMs) (heard : next.heard = fed.heard) :
    Follows decimals serde fed next where
  collector := .one stepped notSend
  heard := heard ▸ List.prefix_refl _

theorem Follows.none (same : next.collector = fed.collector) (heard : next.heard = fed.heard) :
    Follows decimals serde fed next where
  collector := same ▸ .refl
  heard := heard ▸ List.prefix_refl _

theorem Follows.takeTurn (prints : decimals.PrintsBack) {index : Nat} {task : StreamTask}
    {session : Session} {order : IterationOrder} {wake : Wake} {clock : TurnClock} {nowMs : Nat}
    {turn : Turn} (turned : task.turn decimals serde dataset order session clock wake = some turn)
    (taken : fed.takeTurn index task wake clock nowMs turn = some next) :
    Follows decimals serde fed next := by
  cases turn with
  | ends resume =>
      cases taken
      exact .none rfl rfl
  | goesOn after connects events =>
      have sendable := sendable_of_turn prints turned
      obtain ⟨middle, connected, taken⟩ := Option.bind_eq_some_iff.mp taken
      obtain ⟨⟨last, isOpen⟩, sent, rfl⟩ := Option.map_eq_some_iff.mp taken
      refine ⟨Collector.Advances.trans ?_ (.sendAll ?_ ?_ sent), List.prefix_append _ _⟩
      · cases connects with
        | true =>
            rw [if_pos rfl] at connected
            exact .one connected fun _ _ => Action.noConfusion
        | false =>
            cases connected
            exact .refl
      · exact fun event member => (sendable event member).notReconnect
      · intro market member
        obtain ⟨message, rfl, names, provider, coin, received, receivedWallMs⟩ :=
          (sendable _ member).market market rfl
        refine ⟨_, List.mem_append_right _ (List.mem_singleton_self _), ?_⟩
        exact ⟨by rw [provider, coin], names, received.symm, receivedWallMs.symm⟩

theorem Follows.of_step (prints : decimals.PrintsBack) {action : FedAction}
    (stepped : fed.step decimals serde dataset action = some next) :
    Follows decimals serde fed next := by
  cases action with
  | loop action =>
      obtain ⟨collector, looped, rfl⟩ := Option.map_eq_some_iff.mp stepped
      dsimp only
      split
      · exact ⟨.loop looped, List.prefix_refl _⟩
      · exact ⟨.loop looped, List.prefix_refl _⟩
  | opened index now nowMs =>
      obtain ⟨task, _, stepped⟩ := Option.bind_eq_some_iff.mp stepped
      dsimp only at stepped
      split at stepped
      · split at stepped
        · cases stepped
          exact .none rfl rfl
        · obtain ⟨collector, one, rfl⟩ := Option.map_eq_some_iff.mp stepped
          exact .one one (fun _ _ => Action.noConfusion) rfl
      · cases stepped
  | turn index order wake clock nowMs =>
      obtain ⟨task, _, stepped⟩ := Option.bind_eq_some_iff.mp stepped
      obtain ⟨session, _, stepped⟩ := Option.bind_eq_some_iff.mp stepped
      obtain ⟨turn, turned, taken⟩ := Option.bind_eq_some_iff.mp stepped
      exact .takeTurn prints turned taken

variable {config : BenchmarkConfig} {tasks : List StreamTask} {startedAt startedWallMs : Nat}
  {actions : List FedAction} {final : FedCollector}

/-- A run with sessions is a run of the collector, and offers only what was heard. -/
theorem under_of_run (prints : decimals.PrintsBack)
    (reached : run (step decimals serde dataset) (start config tasks startedAt startedWallMs)
      actions = some final) :
    Collector.Under (.start config tasks startedAt startedWallMs) (Told decimals serde final)
      final.collector := by
  refine run_preserves (fun fed => Collector.Under (.start config tasks startedAt startedWallMs)
    (Told decimals serde fed) fed.collector) (fun before action after under stepped => ?_)
    (.start config tasks startedAt startedWallMs _) reached
  have follows := Follows.of_step prints stepped
  refine under.advances follows.collector ?_
  rintro market ⟨heard, member, brings⟩
  exact ⟨heard, follows.heard.subset member, brings⟩

/-! ## Races -/

/-- The sources of a cohort of the coin tell one fact, and the cohort has their latencies. -/
structure Races (decimals : Decimals) (serde : Serde Json) (config : BenchmarkConfig)
    (coin : String) (cohort : CommittedCohort) (fact : Fact) (source : Provider → Heard) :
    Prop where
  stream : ∀ provider ∈ config.providers, (source provider).stream = (provider, coin)
  told : ∀ provider ∈ config.providers,
    Tells decimals serde coin cohort.eventMs (source provider).message fact
  timed : ∀ provider ∈ config.providers, cohort.eventMs ≤ (source provider).receivedWallMs ∧
    cohort.latencyMs provider = (source provider).receivedWallMs - cohort.eventMs
  close : ∀ first ∈ config.providers, ∀ second ∈ config.providers,
    (source first).received < (source second).received + config.cohortTimeout

/--
In every run, whatever the feeds send and however their sessions interleave, a
cohort in a ring times one fact: every active provider sent a message that tells
the same book, or the same trade, in numbers, for the coin and the time of the
cohort, the latencies are those of these messages, and no two of them are a
cohort timeout apart.
-/
theorem cohorts_race_one_fact (prints : decimals.PrintsBack)
    (reached : run (step decimals serde dataset) (start config tasks startedAt startedWallMs)
      actions = some final) {coin : String} {cohort : CommittedCohort}
    (member : cohort ∈ (final.collector.benchmark.windows coin).cohorts) :
    ∃ fact source, Races decimals serde config coin cohort fact source ∧
      ∀ provider ∈ config.providers, source provider ∈ final.heard := by
  obtain ⟨key, arrival, sources, told⟩ := (under_of_run prints reached).sources member
  have exists_heard : ∀ provider, ∃ heard : Heard, provider ∈ config.providers →
      heard ∈ final.heard ∧ heard.Brings decimals serde (arrival provider) := by
    intro provider
    by_cases active : provider ∈ config.providers
    · obtain ⟨heard, isHeard, brings⟩ := told provider active
      exact ⟨heard, fun _ => ⟨isHeard, brings⟩⟩
    · exact ⟨⟨(provider, ""), .block "", 0, 0⟩, fun isActive => absurd isActive active⟩
  choose source brings using exists_heard
  -- every source tells a fact with the content of the key, so they tell the same one
  obtain ⟨fact, fromReference, named⟩ := (brings _ config.referenceProvider_mem).2.names
  rw [(sources.key _ config.referenceProvider_mem).2] at fromReference named
  refine ⟨fact, source, ⟨?_, ?_, ?_, ?_⟩, fun provider active => (brings provider active).1⟩
  · intro provider active
    obtain ⟨sameProvider, sameKey⟩ := sources.key provider active
    rw [(brings provider active).2.stream, sameProvider, sameKey, sources.coin]
  · intro provider active
    obtain ⟨other, otherTold, otherNamed⟩ := (brings provider active).2.names
    rw [(sources.key provider active).2] at otherTold otherNamed
    have same := Fact.Read.content_inj prints fromReference.read otherTold.read
      (named.symm.trans otherNamed)
    rw [sources.eventMs, same, ← sources.coin]
    exact otherTold
  · intro provider active
    rw [(brings provider active).2.receivedWallMs]
    exact sources.timed provider active
  · intro first isFirst second isSecond
    rw [(brings first isFirst).2.received, (brings second isSecond).2.received]
    exact sources.close first isFirst second isSecond

/-- The numbers one and seven, the latter in three texts. -/
def sampleDecimals : Decimals where
  fromStr := fun text =>
    if text = "1" then some 1
    else if text = "7" ∨ text = "7.0" ∨ text = "7.00" then some 7
    else none
  toText := fun value => if value = 1 then "1" else "7"

theorem sampleDecimals_printsBack : sampleDecimals.PrintsBack := by
  intro text value read
  have either : value = 1 ∨ value = 7 := by
    dsimp only [sampleDecimals] at read
    split_ifs at read with one seven
    · exact Or.inl (Option.some.inj read).symm
    · exact Or.inr (Option.some.inj read).symm
  rcases either with rfl | rfl <;> decide +kernel

/-- A string stands for a bid at its price. -/
def bidSerde : Serde Json where
  elements := fun _ => none
  bboData := fun value => value.asStr.map fun px =>
    { coin := "BTC", time := 1, bbo := (some { px := px, sz := "1", n := 1 }, none) }
  l2Data := fun _ => none
  trades := fun _ => none
  fillBatch := fun _ => none

def bidFrame (px : String) : Message :=
  .frame { channel := some "bbo", data := some (.string px), seq := none, cursor := none }

def acknowledgement : Message :=
  .frame
    { channel := none
      data := none
      seq := none
      cursor := none
      messageType := some "subscriptionUpdate"
      subscribed := [.string "bbo"] }

def bidUpdate (px : String) : Message :=
  .bbo { coin := "BTC", time := 1, bid := some { px := px, sz := "1", n := 1 }, ask := none }

def raceTasks : List StreamTask :=
  [{ kind := .foundation, provider := .foundationWs, coin := "BTC" },
    { kind := .hydromancer, provider := .hydromancerWs, coin := "BTC" },
    { kind := .quicknode, provider := .quickNodeGrpc, coin := "BTC" }]

/-- A task handles a message at an instant, one millisecond later on the wall clock. -/
def handle (index : Nat) (message : Message) (instant : Nat) : FedAction :=
  .turn index .stored (.message message) ⟨instant, instant, instant + 1⟩ (instant + 1)

/-- The three feeds write one bid in three ways. -/
def raceActions : List FedAction :=
  [.loop (.dial 0 0), .loop (.dial 1 0), .loop (.dial 2 0), .opened 0 1 2, .opened 1 1 2,
    .opened 2 1 2, handle 1 acknowledgement 2, handle 0 (bidFrame "7.0") 3,
    handle 2 (bidUpdate "7") 4, handle 1 (bidFrame "7.00") 6, .loop (.receive .stored),
    .loop (.receive .stored), .loop (.receive .stored), .loop (.tick .stored 20)]

theorem cohorts_race_one_fact_bid :
    ∃ final cohort, run (step sampleDecimals bidSerde .bbo)
        (start Benchmark.bookProcess raceTasks 0 0) raceActions = some final ∧
      (final.collector.benchmark.windows "BTC").cohorts = [cohort] ∧
      ∃ fact source, Races sampleDecimals bidSerde Benchmark.bookProcess "BTC" cohort fact source ∧
        ∀ provider ∈ Benchmark.bookProcess.providers, source provider ∈ final.heard := by
  have observed : (run (step sampleDecimals bidSerde .bbo)
      (start Benchmark.bookProcess raceTasks 0 0) raceActions).map
        (fun final => (final.collector.benchmark.windows "BTC").cohorts.length) = some 1 := by
    decide +kernel
  obtain ⟨final, reached, count⟩ := Option.map_eq_some_iff.mp observed
  obtain ⟨cohort, ring⟩ := List.length_eq_one_iff.mp count
  refine ⟨final, cohort, reached, ring, cohorts_race_one_fact sampleDecimals_printsBack reached ?_⟩
  rw [ring]
  exact List.mem_singleton_self cohort

end FedCollector

end MarketBenchmark
