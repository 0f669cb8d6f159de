import Mathlib

/-!
# Providers, datasets, keys and probe events

The vocabulary shared by every collector: which path produced an event, which
event it names, and which events the benchmark receives.  Instants of the
monotonic clock and durations are nanoseconds, wall times are milliseconds since
the Unix epoch, all of them natural numbers; `duration_since` saturates like
their subtraction.  An array indexed by `Provider::index` is a function of the
provider.
-/

namespace MarketBenchmark

/-- `Duration::as_millis`. -/
def asMillis (duration : Nat) : Nat := duration / 1000000

/-- `Duration::from_millis`. -/
def fromMillis (milliseconds : Nat) : Nat := milliseconds * 1000000

/-- `Duration::from_secs`. -/
def fromSecs (seconds : Nat) : Nat := seconds * 1000000000

inductive Provider where
  | foundationWs
  | hydromancerWs
  | quickNodeGrpc
  | quickNodePeeringTcp
  | hydromancerPeeringTcp
  | quickNodeVpc
  deriving DecidableEq, Repr

namespace Provider

def name : Provider → String
  | foundationWs => "foundation-ws"
  | hydromancerWs => "hydromancer-ws"
  | quickNodeGrpc => "quicknode-grpc"
  | quickNodePeeringTcp => "quicknode-peering"
  | hydromancerPeeringTcp => "hydromancer-peering"
  | quickNodeVpc => "quicknode-vpc"

def transport : Provider → String
  | foundationWs | hydromancerWs => "ws"
  | quickNodeGrpc => "grpc"
  | quickNodePeeringTcp | hydromancerPeeringTcp => "tcp"
  | quickNodeVpc => "local"

end Provider

def bookProviders : List Provider := [.foundationWs, .hydromancerWs, .quickNodeGrpc]
def bookVpcProviders : List Provider := [.quickNodeVpc]
def fillsProviders : List Provider := [.foundationWs, .quickNodeGrpc]
def fillsVpcProviders : List Provider := [.quickNodeVpc]
def mempoolProviders : List Provider := [.quickNodeGrpc]
def mempoolVpcProviders : List Provider := [.quickNodeGrpc, .quickNodeVpc]
def peeringProviders : List Provider := [.quickNodePeeringTcp]
def hydromancerPeeringProviders : List Provider := [.hydromancerPeeringTcp]
def peeringComparisonProviders : List Provider := [.quickNodePeeringTcp, .hydromancerPeeringTcp]
def peeringVpcProviders : List Provider := [.quickNodePeeringTcp, .quickNodeVpc]
def hydromancerPeeringVpcProviders : List Provider := [.hydromancerPeeringTcp, .quickNodeVpc]
def peeringComparisonVpcProviders : List Provider :=
  [.quickNodePeeringTcp, .hydromancerPeeringTcp, .quickNodeVpc]

/-- Which peering services one peering process dials. -/
inductive PeeringMode where
  | quicknode
  | hydromancer
  | comparison
  deriving DecidableEq, Repr

namespace PeeringMode

def providers : PeeringMode → List Provider
  | quicknode => peeringProviders
  | hydromancer => hydromancerPeeringProviders
  | comparison => peeringComparisonProviders

def vpcProviders : PeeringMode → List Provider
  | quicknode => peeringVpcProviders
  | hydromancer => hydromancerPeeringVpcProviders
  | comparison => peeringComparisonVpcProviders

def referenceProvider : PeeringMode → Provider
  | quicknode | comparison => .quickNodePeeringTcp
  | hydromancer => .hydromancerPeeringTcp

def hasProviderComparison : PeeringMode → Bool
  | comparison => true
  | quicknode | hydromancer => false

end PeeringMode

inductive Dataset where
  | bbo
  | l2book
  | fills
  | mempool
  | peering
  deriving DecidableEq, Repr

namespace Dataset

def label : Dataset → String
  | bbo => "bbo"
  | l2book => "l2book"
  | fills => "fills"
  | mempool => "mempool"
  | peering => "peering"

def providers : Dataset → List Provider
  | bbo | l2book => bookProviders
  | fills => fillsProviders
  | mempool => mempoolProviders
  | peering => peeringProviders

def schema : Dataset → String
  | bbo | l2book => "hyperliquid-market-benchmark-v1"
  | fills => "hyperliquid-market-benchmark-v2"
  | mempool => "hyperliquid-market-benchmark-v3"
  | peering => "hyperliquid-market-benchmark-v4"

def referenceProvider : Dataset → Provider
  | bbo | l2book | fills => .foundationWs
  | mempool => .quickNodeGrpc
  | peering => .quickNodePeeringTcp

def hasProviderComparison : Dataset → Bool
  | mempool | peering => false
  | bbo | l2book | fills => true

end Dataset

structure LevelKey where
  px : String
  sz : String
  n : Nat
  deriving DecidableEq, Repr

/-- The canonical content of one event. -/
inductive ContentKey where
  | bbo (bid ask : Option LevelKey)
  | l2 (bids asks : List LevelKey)
  | trade (tid : Nat) (side px sz hash : String) (users : String × String)
  | mempool (txHash : String)
  | peering (round : Nat)
  deriving DecidableEq, Repr

/-- What an event must share with another one to be a revision of it. -/
structure BaseKey where
  coin : String
  eventMs : Nat
  tradeId : Option Nat
  mempoolTxHash : Option String
  peeringRound : Option Nat
  deriving DecidableEq, Repr

structure EventKey where
  coin : String
  eventMs : Nat
  content : ContentKey
  deriving DecidableEq, Repr

/-- The base an event belongs to: books by timestamp alone, the other datasets
by timestamp and trade, transaction or round. -/
def EventKey.base (key : EventKey) : BaseKey where
  coin := key.coin
  eventMs := key.eventMs
  tradeId :=
    match key.content with
    | .trade tid .. => some tid
    | _ => none
  mempoolTxHash :=
    match key.content with
    | .mempool txHash => some txHash
    | _ => none
  peeringRound :=
    match key.content with
    | .peering round => some round
    | _ => none

@[simp]
theorem EventKey.base_coin (key : EventKey) : key.base.coin = key.coin := rfl

@[simp]
theorem EventKey.base_eventMs (key : EventKey) : key.base.eventMs = key.eventMs := rfl

/-- A key is determined by its base and its content. -/
theorem EventKey.eq_of_base {first second : EventKey} (sameBase : first.base = second.base)
    (sameContent : first.content = second.content) : first = second := by
  have coins := congrArg BaseKey.coin sameBase
  have times := congrArg BaseKey.eventMs sameBase
  cases first
  cases second
  simp_all

structure MarketEvent where
  provider : Provider
  key : EventKey
  received : Nat
  receivedWallMs : Nat
  deriving DecidableEq, Repr

inductive ProbeEvent where
  | market (event : MarketEvent)
  | reconnect (provider : Provider) (coin : String)
  | sequenceGap (provider : Provider) (coin : String) (missing : Nat)
  | replay (provider : Provider) (coin : String) (messages : Nat) (hasGap : Bool)
  deriving DecidableEq, Repr

/-- What the publication reads of one stream's signals. -/
structure StreamSignalSnapshot where
  connectionUp : Bool := false
  lastMessageWallMs : Nat := 0
  queueDropped : Nat := 0
  lastQueueDropWallMs : Nat := 0
  deriving DecidableEq, Repr

/-- The signals of every stream at one moment. -/
abbrev RuntimeSignals : Type := Provider → String → StreamSignalSnapshot

end MarketBenchmark
