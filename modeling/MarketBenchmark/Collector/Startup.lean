import MarketBenchmark.Collector.Process
import MarketBenchmark.Collector.Coins
import MarketBenchmark.Collector.Endpoints

/-!
# From arguments to stream tasks

What `main` decides before its loop: the coins of the process, the peering
services and sources on the box that it may use, the configuration of the
benchmark and the tasks that `spawn_streams` starts.  What other crates and the
file system decide about a text is a parameter: the parts of a URL, whether a
secret can be a header, and whether a node directory holds a fills tree.
-/

namespace MarketBenchmark

open Foundation.Results

/-! ## Peering services -/

/-- Where the bytes of the peering dataset come from. -/
inductive PeeringSource where
  | dial
  | tap
  | tapHydromancer
  deriving DecidableEq, Repr

def PeeringSource.taps (source : PeeringSource) (provider : Provider) : Bool :=
  match source with
  | .dial => false
  | .tap => true
  | .tapHydromancer => provider == .hydromancerPeeringTcp

/-- The endpoint of one service of a peering mode. -/
def peeringEndpoint (quicknode hydromancer : Option Text) (provider : Provider) :
    Except String (Provider × Text) :=
  let required := fun (flag : String) (value : Option Text) =>
    match value with
    | none => .error (flag ++ " is required for peering provider " ++ provider.name)
    | some endpoint =>
        (validatePeeringEndpoint endpoint "peering endpoint").map fun _ => (provider, endpoint)
  match provider with
  | .quickNodePeeringTcp =>
      required "--quicknode-peering-endpoint (QUICKNODE_PEERING_ENDPOINT)" quicknode
  | .hydromancerPeeringTcp =>
      required "--hydromancer-peering-endpoint (HYDROMANCER_PEERING_ENDPOINT)" hydromancer
  | other => .error (other.name ++ " is not a peering provider")

def peeringEndpoints (mode : PeeringMode) (quicknode hydromancer : Option Text) :
    Except String (List (Provider × Text)) :=
  (mode.providers.mapM (peeringEndpoint quicknode hydromancer)).bind fun endpoints =>
    match endpoints with
    | (_, first) :: (_, second) :: _ =>
        if first = second then
          .error ("peering comparison needs two distinct endpoints, got " ++
            String.ofList first ++ " twice")
        else .ok endpoints
    | _ => .ok endpoints

/-! ## Arguments -/

/-- What other crates and the file system decide. -/
structure Surroundings where
  parseUrl : Text → Option Url
  isMetadataValue : Text → Bool
  hasFillsTree : Text → Bool
  hydromancerKey : Option Text
  quicknodeToken : Option Text

structure Args where
  dataset : Dataset
  coins : Text
  quicknodeGrpc : Option Text
  quicknodePeeringEndpoint : Option Text
  hydromancerPeeringEndpoint : Option Text
  peeringProvider : PeeringMode
  peeringSource : PeeringSource
  peeringReference : Option Text
  vpcNodeData : Option Text
  vpcDecodedSocket : Option Text
  vpcGrpcUrl : Option Text
  cloud : Option Text
  region : Option Text
  metro : Option Text
  runner : Text
  runId : String

variable (around : Surroundings)

def requiredSecret (name : String) (value : Option Text) : Except String Text :=
  match value with
  | some (symbol :: rest) => .ok (symbol :: rest)
  | _ => .error (name ++ " is required")

def validateVpcNodeData (dataset : Dataset) (path : Option Text) : Except String (Option Text) :=
  match path with
  | none => .ok none
  | some path =>
      if dataset ≠ .fills then
        .error ("--vpc-node-data (VPC_NODE_DATA) is only supported for the fills dataset today, not "
          ++ dataset.label)
      else if around.hasFillsTree path then .ok (some path)
      else
        .error ("--vpc-node-data " ++ String.ofList path ++
          " has no node_fills_by_block/hourly directory (is this the node's hl/data?)")

def validateVpcGrpc (dataset : Dataset) (url : Option Text) : Except String (Option Text) :=
  match url with
  | none => .ok none
  | some url =>
      if dataset ≠ .bbo ∧ dataset ≠ .l2book then
        .error ("--vpc-grpc-url (VPC_GRPC_URL) is only supported for the bbo and l2book datasets, not "
          ++ dataset.label)
      else (validateVpcGrpcEndpoint around.parseUrl url).map some

def validateVpcDecodedSocket (dataset : Dataset) (socket : Option Text)
    (endpoints : List (Provider × Text)) (reference : Text) : Except String (Option Text) :=
  match socket with
  | none => .ok none
  | some socket =>
      if dataset ≠ .peering ∧ dataset ≠ .mempool then
        .error ("--vpc-decoded-socket (VPC_DECODED_SOCKET) is only supported for the peering and mempool datasets, not "
          ++ dataset.label)
      else
        (validatePeeringEndpoint socket "decoded stream socket").bind fun _ =>
          if (endpoints.any fun entry => decide (entry.2 = socket)) ∨ reference = socket then
            .error ("--vpc-decoded-socket " ++ String.ofList socket ++
              " is already dialed as a peering endpoint or the reference feed; one wire is never scored twice")
          else .ok (some socket)

/-- The endpoints and the reference feed of the peering dataset. -/
def peeringArguments (args : Args) : Except String (List (Provider × Text) × Text) :=
  if args.dataset = .peering then do
    let endpoints ← peeringEndpoints args.peeringProvider args.quicknodePeeringEndpoint
      args.hydromancerPeeringEndpoint
    match args.peeringReference with
    | none =>
        .error "--peering-reference (PEERING_REFERENCE_FEED) is required for the peering dataset"
    | some reference =>
        validatePeeringEndpoint reference "peering reference feed"
        if args.peeringSource = .tapHydromancer ∧ args.peeringProvider ≠ .comparison then
          .error "--peering-source tap-hydromancer pairs a tapped Hydromancer leg with a dialed Quicknode leg: it needs --peering-provider comparison"
        else
          match endpoints.find? fun entry =>
            args.peeringSource.taps entry.1 && (parseSocketAddrV4 entry.2).isNone with
          | some (_, endpoint) =>
              .error ("--peering-source tap needs an IPv4 ip:port the node is connected to, got " ++
                String.ofList endpoint)
          | none => .ok (endpoints, reference)
  else .ok ([], [])

/-! ## Streams -/

/-- What `spawn_streams` reads of its configuration, besides URLs and tokens. -/
structure StreamConfig where
  dataset : Dataset
  coins : List String
  peeringEndpoints : List (Provider × Text)
  peeringSource : PeeringSource
  vpcNodeData : Option Text
  vpcDecodedSocket : Option Text
  vpcGrpc : Option Text

namespace StreamConfig

variable (config : StreamConfig)

def vpcNodeOnly : Bool := config.dataset == .fills && config.vpcNodeData.isSome

def vpcGrpcOnly : Bool :=
  (config.dataset == .bbo || config.dataset == .l2book) && config.vpcGrpc.isSome

def vpcOnly : Bool := config.vpcNodeOnly || config.vpcGrpcOnly

/-- The network feed of a provider, if the dataset has one and the box is not alone. -/
def networkTask (coin : String) (provider : Provider) (kind : TaskKind) : List StreamTask :=
  if provider ∈ config.dataset.providers ∧ config.vpcOnly = false then
    [{ kind := kind, provider := provider, coin := coin }]
  else []

/-- The tasks of one coin that dial, in the order in which they are spawned. -/
def coinTasks (coin : String) : List StreamTask :=
  config.networkTask coin .foundationWs .foundation ++
  config.networkTask coin .hydromancerWs .hydromancer ++
  (if config.dataset = .mempool ∧ config.vpcDecodedSocket.isSome then
    [{ kind := .bundleLines, provider := .quickNodeVpc, coin := coin }] else []) ++
  config.networkTask coin .quickNodeGrpc .quicknode ++
  (if (config.dataset = .bbo ∨ config.dataset = .l2book) ∧ config.vpcGrpc.isSome then
    [{ kind := .quicknode, provider := .quickNodeVpc, coin := coin }] else []) ++
  (if config.dataset = .fills ∧ config.vpcNodeData.isSome then
    [{ kind := .vpcFills, provider := .quickNodeVpc, coin := coin }] else []) ++
  (if config.dataset = .peering then
    (config.peeringEndpoints.map fun entry =>
      { kind := if config.peeringSource.taps entry.1 then .peeringTap else .peering
        provider := entry.1
        coin := coin : StreamTask }) ++
    (if config.vpcDecodedSocket.isSome then
      [{ kind := .vpcDecoded, provider := .quickNodeVpc, coin := coin }] else [])
  else [])

/-- `spawn_streams`, without the join tasks, which dial nothing. -/
def spawnStreams : List StreamTask := config.coins.flatMap config.coinTasks

end StreamConfig

/-! ## Startup -/

structure Startup where
  benchmark : BenchmarkConfig
  streams : StreamConfig
  reference : Text

/-- The secrets and the endpoint that a network feed of the dataset needs. -/
def networkArguments (args : Args) (vpcOnly : Bool) : Except String Unit := do
  if Provider.hydromancerWs ∈ args.dataset.providers ∧ vpcOnly = false then
    let _ ← requiredSecret "HYDROMANCER_API_KEY" around.hydromancerKey
  if Provider.quickNodeGrpc ∈ args.dataset.providers ∧ vpcOnly = false then
    let token ← requiredSecret "QUICKNODE_HYPERLIQUID_TOKEN" around.quicknodeToken
    if around.isMetadataValue token = false then
      .error "QUICKNODE_HYPERLIQUID_TOKEN contains invalid header characters"
    if args.quicknodeGrpc.isNone then
      .error "--quicknode-grpc (QUICKNODE_HYPERLIQUID_GRPC_URL) is required for this dataset"

/-- `main` up to the spawning of the streams. -/
def startup (args : Args) : Except String Startup := do
  let coins ← parseCoins args.coins
  validateDatasetCoins args.dataset coins
  let (cloud, region, metro) ← resolveLocation args.cloud args.region args.metro args.runner
  let vpcNodeOnly := args.dataset == .fills && args.vpcNodeData.isSome
  let vpcGrpcOnly :=
    (args.dataset == .bbo || args.dataset == .l2book) && args.vpcGrpcUrl.isSome
  networkArguments around args (vpcNodeOnly || vpcGrpcOnly)
  let (endpoints, reference) ← peeringArguments args
  let vpcNodeData ← validateVpcNodeData around args.dataset args.vpcNodeData
  let vpcDecodedSocket ←
    validateVpcDecodedSocket args.dataset args.vpcDecodedSocket endpoints reference
  let vpcGrpc ← validateVpcGrpc around args.dataset args.vpcGrpcUrl
  let config := BenchmarkConfig.production args.dataset coins (String.ofList cloud)
    (String.ofList region) (String.ofList metro) (String.ofList args.runner) args.runId
  .ok
    { benchmark :=
        { config with
          peeringMode := args.peeringProvider
          vpcLocal := vpcNodeData.isSome || vpcDecodedSocket.isSome || vpcGrpc.isSome }
      streams :=
        { dataset := args.dataset
          coins := coins
          peeringEndpoints := endpoints
          peeringSource := args.peeringSource
          vpcNodeData := vpcNodeData
          vpcDecodedSocket := vpcDecodedSocket
          vpcGrpc := vpcGrpc }
      reference := reference }

end MarketBenchmark
