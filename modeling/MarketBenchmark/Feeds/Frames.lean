import MarketBenchmark.Feeds.Decimals

/-!
# Messages of the feeds

The websocket feeds send JSON frames, the gRPC feeds send Protobuf updates and
fill batches as JSON texts.  Deserialising JSON is a parameter: it either fails
or yields the message.
-/

namespace MarketBenchmark

def Dataset.channel : Dataset → String
  | .bbo => "bbo"
  | .l2book => "l2Book"
  | .fills => "trades"
  | .mempool => "mempool_txs"
  | .peering => "gossip_blocks"

namespace Feeds

def l2BookDepth : Nat := 20

/-! ## Websocket frames -/

structure WsFrame (Value : Type) where
  channel : Option String
  data : Option Value
  seq : Option Nat
  cursor : Option String

structure WsBboData where
  coin : String
  time : Nat
  bbo : Option Level × Option Level
  deriving DecidableEq

structure WsL2Data where
  coin : String
  time : Nat
  levels : List Level × List Level
  deriving DecidableEq

structure WsTrade where
  coin : String
  side : String
  px : String
  sz : String
  hash : String
  time : Nat
  tid : Nat
  users : String × String
  deriving DecidableEq

structure ParsedWsBook where
  key : EventKey
  seq : Option Nat
  cursor : Option String
  deriving DecidableEq

/-! ## Quicknode updates -/

structure BboBookUpdate where
  coin : String
  time : Nat
  bid : Option Level
  ask : Option Level

structure L2BookUpdate where
  coin : String
  time : Nat
  bids : List Level
  asks : List Level

structure QuickNodeFill where
  coin : String
  px : String
  sz : String
  side : String
  time : Nat
  hash : String
  crossed : Bool
  tid : Nat
  deriving DecidableEq

/-- The fills of one block, each with the user whose account it is of. -/
structure QuickNodeFillBatch where
  events : List (String × QuickNodeFill)

/-! ## JSON -/

/-- What the collectors use of `serde_json`: the elements of an array, and the messages that a
value or a text deserialises to. -/
structure Serde (Value : Type) where
  elements : Value → Option (List Value)
  bboData : Value → Option WsBboData
  l2Data : Value → Option WsL2Data
  trades : Value → Option (List WsTrade)
  fillBatch : String → Option QuickNodeFillBatch

end Feeds

end MarketBenchmark
