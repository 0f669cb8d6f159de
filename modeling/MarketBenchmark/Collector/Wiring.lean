import MarketBenchmark.Collector.Startup

/-!
# What an accepted set of arguments starts

The tasks that are spawned are exactly one for each coin and active provider,
all ready, and no wire of the peering dataset is dialed under two names.
-/

namespace MarketBenchmark

open Foundation.Results

/-! ## Peering endpoints -/

/-- An endpoint is resolved under its own service. -/
theorem peeringEndpoint_fst {quicknode hydromancer : Option Text} {provider : Provider}
    {entry : Provider × Text}
    (resolved : peeringEndpoint quicknode hydromancer provider = .ok entry) :
    entry.1 = provider := by
  cases provider with
  | quickNodePeeringTcp =>
      cases quicknode with
      | none => cases resolved
      | some endpoint =>
          obtain ⟨_, _, rfl⟩ := map_eq_ok_iff.mp resolved
          rfl
  | hydromancerPeeringTcp =>
      cases hydromancer with
      | none => cases resolved
      | some endpoint =>
          obtain ⟨_, _, rfl⟩ := map_eq_ok_iff.mp resolved
          rfl
  | foundationWs => cases resolved
  | hydromancerWs => cases resolved
  | quickNodeGrpc => cases resolved
  | quickNodeVpc => cases resolved

/-- The endpoints of a mode are its services', in their order, each with its own wire. -/
theorem peeringEndpoints_spec {mode : PeeringMode} {quicknode hydromancer : Option Text}
    {endpoints : List (Provider × Text)}
    (resolved : peeringEndpoints mode quicknode hydromancer = .ok endpoints) :
    endpoints.map Prod.fst = mode.providers ∧ (endpoints.map Prod.snd).Nodup := by
  obtain ⟨found, each, distinct⟩ := bind_eq_ok_iff.mp resolved
  have related : List.Forall₂ (fun provider entry => provider = entry.1) mode.providers found :=
    (mapM_eq_ok_iff.mp each).imp fun _ _ resolved => (peeringEndpoint_fst resolved).symm
  have services : mode.providers = found.map Prod.fst := by
    have mapped := List.forall₂_map_right_iff.mpr related
    rwa [List.forall₂_eq_eq_eq] at mapped
  split at distinct
  · rename_i first second rest
    split_ifs at distinct with same
    obtain rfl := Except.ok.inj distinct
    have alone : rest = [] := by
      have counted := congrArg List.length services
      cases mode <;> cases rest <;> simp [PeeringMode.providers, peeringProviders,
        hydromancerPeeringProviders, peeringComparisonProviders] at counted ⊢
    subst alone
    exact ⟨services.symm, by simpa using same⟩
  · rename_i short
    obtain rfl := Except.ok.inj distinct
    refine ⟨services.symm, ?_⟩
    cases found with
    | nil => exact List.nodup_nil
    | cons first others =>
        cases others with
        | nil => exact List.nodup_singleton _
        | cons second rest => exact (short first.1 first.2 second.1 second.2 rest rfl).elim

theorem vpcProviders_eq (mode : PeeringMode) :
    mode.vpcProviders = mode.providers ++ [.quickNodeVpc] := by
  cases mode <;> rfl

/-! ## The arguments of an accepted start -/

variable {around : Surroundings} {args : Args}

/-- What the peering arguments give. -/
structure PeeringWires (args : Args) (endpoints : List (Provider × Text)) : Prop where
  services : args.dataset = .peering → endpoints.map Prod.fst = args.peeringProvider.providers
  distinct : (endpoints.map Prod.snd).Nodup
  tapped : ∀ entry ∈ endpoints, args.peeringSource.taps entry.1 = true →
    ∃ address, parseSocketAddrV4 entry.2 = some address

theorem peeringArguments_spec {endpoints : List (Provider × Text)} {reference : Text}
    (accepted : peeringArguments args = .ok (endpoints, reference)) :
    PeeringWires args endpoints := by
  unfold peeringArguments at accepted
  by_cases peering : args.dataset = .peering
  · rw [if_pos peering] at accepted
    obtain ⟨found, resolved, accepted⟩ := bind_eq_ok_iff.mp accepted
    obtain ⟨services, distinct⟩ := peeringEndpoints_spec resolved
    split at accepted
    · cases accepted
    · obtain ⟨_, _, accepted⟩ := bind_eq_ok_iff.mp accepted
      split at accepted
      · cases accepted
      · split at accepted
        · cases accepted
        · rename_i untapped
          obtain ⟨rfl, _⟩ := Prod.mk.inj (Except.ok.inj accepted)
          refine ⟨fun _ => services, distinct, fun entry member taps => ?_⟩
          have kept := List.find?_eq_none.mp untapped entry member
          rw [taps, Bool.true_and, Option.isNone_iff_eq_none] at kept
          exact Option.ne_none_iff_exists'.mp kept
  · rw [if_neg peering] at accepted
    obtain ⟨rfl, _⟩ := Prod.mk.inj (Except.ok.inj accepted)
    exact ⟨fun same => absurd same peering, List.nodup_nil, fun _ member =>
      absurd member List.not_mem_nil⟩

/-- A node directory is accepted with the fills alone, and is used if it is given. -/
theorem validateVpcNodeData_spec {dataset : Dataset} {path result : Option Text}
    (accepted : validateVpcNodeData around dataset path = .ok result) :
    result = path ∧ (result.isSome = true → dataset = .fills) := by
  cases path with
  | none =>
      obtain rfl := Except.ok.inj accepted
      exact ⟨rfl, fun given => (nomatch given)⟩
  | some path =>
      dsimp only [validateVpcNodeData] at accepted
      split_ifs at accepted with other present
      obtain rfl := Except.ok.inj accepted
      exact ⟨rfl, fun _ => not_not.mp other⟩

theorem validateVpcGrpc_spec {dataset : Dataset} {url result : Option Text}
    (accepted : validateVpcGrpc around dataset url = .ok result) :
    (result.isSome = true → dataset = .bbo ∨ dataset = .l2book) ∧
      ∀ origin, result = some origin → ∃ endpoint, url = some endpoint ∧
        validateVpcGrpcEndpoint around.parseUrl endpoint = .ok origin := by
  cases url with
  | none =>
      obtain rfl := Except.ok.inj accepted
      exact ⟨fun given => (nomatch given), fun origin given => (nomatch given)⟩
  | some url =>
      dsimp only [validateVpcGrpc] at accepted
      split_ifs at accepted with other
      obtain ⟨_, valid, rfl⟩ := map_eq_ok_iff.mp accepted
      refine ⟨fun _ => ?_, fun origin given => ⟨url, rfl, Option.some.inj given ▸ valid⟩⟩
      by_contra neither
      exact other (not_or.mp neither)

/-- The decoded stream socket is a wire of its own. -/
theorem validateVpcDecodedSocket_spec {dataset : Dataset} {socket result : Option Text}
    {endpoints : List (Provider × Text)} {reference : Text}
    (accepted : validateVpcDecodedSocket dataset socket endpoints reference = .ok result) :
    (result.isSome = true → dataset = .peering ∨ dataset = .mempool) ∧
      ∀ wire, result = some wire → wire ∉ endpoints.map Prod.snd ∧ wire ≠ reference := by
  cases socket with
  | none =>
      obtain rfl := Except.ok.inj accepted
      exact ⟨fun given => (nomatch given), fun wire given => (nomatch given)⟩
  | some socket =>
      dsimp only [validateVpcDecodedSocket] at accepted
      by_cases other : dataset ≠ .peering ∧ dataset ≠ .mempool
      · rw [if_pos other] at accepted
        cases accepted
      rw [if_neg other] at accepted
      obtain ⟨_, _, accepted⟩ := bind_eq_ok_iff.mp accepted
      split_ifs at accepted with dialed
      obtain rfl := Except.ok.inj accepted
      rw [not_or] at dialed
      refine ⟨fun _ => ?_, fun wire given => ?_⟩
      · by_contra neither
        exact other (not_or.mp neither)
      · obtain rfl := Option.some.inj given
        refine ⟨fun member => dialed.1 ?_, fun same => dialed.2 same.symm⟩
        obtain ⟨entry, isEndpoint, same⟩ := List.mem_map.mp member
        exact List.any_eq_true.mpr ⟨entry, isEndpoint, decide_eq_true same⟩

/-! ## The tasks of a coin -/

namespace StreamConfig

variable (config : StreamConfig)

theorem mem_networkTask {coin : String} {provider : Provider} {kind : TaskKind}
    {task : StreamTask} (member : task ∈ config.networkTask coin provider kind) :
    task.coin = coin ∧ task.phase = .ready := by
  unfold networkTask at member
  split_ifs at member
  · rw [List.mem_singleton.mp member]
    exact ⟨rfl, rfl⟩
  · exact absurd member List.not_mem_nil

theorem mem_coinTasks {coin : String} {task : StreamTask}
    (member : task ∈ config.coinTasks coin) : task.coin = coin ∧ task.phase = .ready := by
  have one : ∀ (p : Prop) [Decidable p] (only : StreamTask), only.coin = coin →
      only.phase = .ready → task ∈ (if p then [only] else []) →
        task.coin = coin ∧ task.phase = .ready := by
    intro p _ only same ready member
    split_ifs at member
    · rw [List.mem_singleton.mp member]
      exact ⟨same, ready⟩
    · exact absurd member List.not_mem_nil
  unfold coinTasks at member
  simp only [List.mem_append] at member
  rcases member with (((((foundation | hydromancer) | lines) | quicknode) | grpc) | fills) | peering
  · exact config.mem_networkTask foundation
  · exact config.mem_networkTask hydromancer
  · exact one _ _ rfl rfl lines
  · exact config.mem_networkTask quicknode
  · exact one _ _ rfl rfl grpc
  · exact one _ _ rfl rfl fills
  · split at peering
    · rcases List.mem_append.mp peering with dialed | decoded
      · obtain ⟨entry, _, rfl⟩ := List.mem_map.mp dialed
        exact ⟨rfl, rfl⟩
      · exact one _ _ rfl rfl decoded
    · exact absurd peering List.not_mem_nil

/-- The stream configuration and the benchmark are of one set of arguments. -/
structure Matches (benchmark : BenchmarkConfig) : Prop where
  dataset : config.dataset = benchmark.dataset
  coins : config.coins = benchmark.coins
  vpcLocal : benchmark.vpcLocal =
    (config.vpcNodeData.isSome || config.vpcDecodedSocket.isSome || config.vpcGrpc.isSome)
  nodeData : config.vpcNodeData.isSome = true → config.dataset = .fills
  socket : config.vpcDecodedSocket.isSome = true →
    config.dataset = .peering ∨ config.dataset = .mempool
  grpc : config.vpcGrpc.isSome = true → config.dataset = .bbo ∨ config.dataset = .l2book
  services : config.dataset = .peering →
    config.peeringEndpoints.map Prod.fst = benchmark.peeringMode.providers

variable {config} {benchmark : BenchmarkConfig}

theorem map_provider_networkTask (coin : String) (provider : Provider) (kind : TaskKind) :
    (config.networkTask coin provider kind).map StreamTask.provider =
      if provider ∈ config.dataset.providers ∧ config.vpcOnly = false then [provider] else [] := by
  unfold networkTask
  split_ifs <;> rfl

/-- A coin has one task for each active provider. -/
theorem Matches.providers_perm (same : config.Matches benchmark) (coin : String) :
    List.Perm ((config.coinTasks coin).map StreamTask.provider) benchmark.providers := by
  obtain ⟨dataset, _, vpcLocal, nodeData, socket, grpc, services⟩ := same
  have noNode : config.dataset ≠ .fills → config.vpcNodeData = none := fun other =>
    Option.not_isSome_iff_eq_none.mp fun given => other (nodeData given)
  have noSocket : config.dataset ≠ .peering → config.dataset ≠ .mempool →
      config.vpcDecodedSocket = none := fun first second =>
    Option.not_isSome_iff_eq_none.mp fun given => (socket given).elim first second
  have noGrpc : config.dataset ≠ .bbo → config.dataset ≠ .l2book → config.vpcGrpc = none :=
    fun first second => Option.not_isSome_iff_eq_none.mp fun given => (grpc given).elim first second
  unfold coinTasks BenchmarkConfig.providers
  simp only [List.map_append, map_provider_networkTask]
  rw [← dataset, vpcLocal]
  cases kind : config.dataset with
  | bbo =>
      rw [kind] at noNode noSocket noGrpc
      cases given : config.vpcGrpc <;>
        simp [vpcOnly, vpcNodeOnly, vpcGrpcOnly, kind, given, noNode, noSocket, Dataset.providers,
          bookProviders, bookVpcProviders]
  | l2book =>
      rw [kind] at noNode noSocket noGrpc
      cases given : config.vpcGrpc <;>
        simp [vpcOnly, vpcNodeOnly, vpcGrpcOnly, kind, given, noNode, noSocket, Dataset.providers,
          bookProviders, bookVpcProviders]
  | fills =>
      rw [kind] at noNode noSocket noGrpc
      cases given : config.vpcNodeData <;>
        simp [vpcOnly, vpcNodeOnly, vpcGrpcOnly, kind, given, noGrpc, noSocket, Dataset.providers,
          fillsProviders, fillsVpcProviders]
  | mempool =>
      rw [kind] at noNode noSocket noGrpc
      cases given : config.vpcDecodedSocket with
      | none =>
          simp [vpcOnly, vpcNodeOnly, vpcGrpcOnly, kind, noNode, noGrpc, Dataset.providers,
            mempoolProviders]
      | some wire =>
          simp [vpcOnly, vpcNodeOnly, vpcGrpcOnly, kind, noNode, noGrpc, Dataset.providers,
            mempoolProviders, mempoolVpcProviders]
          exact List.Perm.swap _ _ []
  | peering =>
      rw [kind] at noNode noSocket noGrpc
      have listed := services kind
      cases given : config.vpcDecodedSocket with
      | none =>
          simp [vpcOnly, vpcNodeOnly, vpcGrpcOnly, kind, noNode, noGrpc, Dataset.providers,
            peeringProviders, ← listed, Function.comp_def]
      | some wire =>
          simp [vpcOnly, vpcNodeOnly, vpcGrpcOnly, kind, noNode, noGrpc, Dataset.providers,
            peeringProviders, vpcProviders_eq, ← listed, Function.comp_def]

/-- The streams of the spawned tasks are the pairs of an active provider and a coin. -/
theorem Matches.mem_streams_iff (same : config.Matches benchmark) (stream : Stream) :
    stream ∈ config.spawnStreams.map StreamTask.stream ↔
      stream.2 ∈ benchmark.coins ∧ stream.1 ∈ benchmark.providers := by
  unfold spawnStreams
  rw [← same.coins]
  constructor
  · intro member
    obtain ⟨task, spawned, rfl⟩ := List.mem_map.mp member
    obtain ⟨coin, known, ofCoin⟩ := List.mem_flatMap.mp spawned
    refine ⟨?_, (same.providers_perm coin).mem_iff.mp (List.mem_map_of_mem ofCoin)⟩
    rw [show task.stream.2 = task.coin from rfl, (mem_coinTasks config ofCoin).1]
    exact known
  · rintro ⟨known, active⟩
    obtain ⟨task, ofCoin, provider⟩ :=
      List.mem_map.mp ((same.providers_perm stream.2).mem_iff.mpr active)
    refine List.mem_map.mpr ⟨task, List.mem_flatMap.mpr ⟨stream.2, known, ofCoin⟩, ?_⟩
    exact Prod.ext provider (mem_coinTasks config ofCoin).1

theorem Matches.streams_nodup (same : config.Matches benchmark) (nodup : config.coins.Nodup) :
    (config.spawnStreams.map StreamTask.stream).Nodup := by
  unfold spawnStreams
  rw [List.map_flatMap, List.nodup_flatMap]
  refine ⟨fun coin _ => ?_, ?_⟩
  · refine List.Nodup.of_map Prod.fst ?_
    rw [List.map_map]
    exact (same.providers_perm coin).nodup_iff.mpr benchmark.providers_nodup
  · refine nodup.imp fun {first second} different stream inFirst inSecond => different ?_
    obtain ⟨task, ofFirst, rfl⟩ := List.mem_map.mp inFirst
    obtain ⟨other, ofSecond, shared⟩ := List.mem_map.mp inSecond
    have coins : other.coin = task.coin := congrArg Prod.snd shared
    rw [← (mem_coinTasks config ofFirst).1, ← (mem_coinTasks config ofSecond).1, coins]

end StreamConfig

/-! ## Startup -/

/-- A start whose tasks, coins and wires are as the rows assume. -/
structure Wired (parseUrl : Text → Option Url) (started : Startup) : Prop where
  coins : CanonicalCoins started.benchmark.coins
  covered : ∀ stream, stream ∈ started.streams.spawnStreams.map StreamTask.stream ↔
    stream.2 ∈ started.benchmark.coins ∧ stream.1 ∈ started.benchmark.providers
  distinct : (started.streams.spawnStreams.map StreamTask.stream).Nodup
  ready : ∀ task ∈ started.streams.spawnStreams, task.phase = .ready
  publishes : 0 < asMillis started.benchmark.publishInterval
  rollingCapacity : maxSignaturesPerBase ≤ started.benchmark.maxRollingCohorts
  wires : (started.streams.peeringEndpoints.map Prod.snd).Nodup
  socket : ∀ wire, started.streams.vpcDecodedSocket = some wire →
    wire ∉ started.streams.peeringEndpoints.map Prod.snd ∧ wire ≠ started.reference
  tapped : ∀ entry ∈ started.streams.peeringEndpoints,
    started.streams.peeringSource.taps entry.1 = true →
      ∃ address, parseSocketAddrV4 entry.2 = some address
  boxed : ∀ origin, started.streams.vpcGrpc = some origin →
    ∃ endpoint url, endpoint.rdropWhile (· == '/') = origin ∧ parseUrl endpoint = some url ∧
      url.IsLoopbackOrigin

/-- A box that compares both peering services with its own decoded stream. -/
def comparingArgs : Args where
  dataset := .peering
  coins := "blocks".toList
  quicknodeGrpc := none
  quicknodePeeringEndpoint := some "10.0.0.1:4001".toList
  hydromancerPeeringEndpoint := some "10.0.0.2:4001".toList
  peeringProvider := .comparison
  peeringSource := .tapHydromancer
  peeringReference := some "127.0.0.1:7001".toList
  vpcNodeData := none
  vpcDecodedSocket := some "127.0.0.1:7002".toList
  vpcGrpcUrl := none
  cloud := none
  region := none
  metro := none
  runner := "vpc-nrt-01".toList
  runId := "run"

def comparingBox : Surroundings where
  parseUrl := fun _ => none
  isMetadataValue := fun _ => true
  hasFillsTree := fun _ => false
  hydromancerKey := none
  quicknodeToken := none

end MarketBenchmark
