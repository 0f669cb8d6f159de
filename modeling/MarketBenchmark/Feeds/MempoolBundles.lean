import MarketBenchmark.Feeds.Json
import MarketBenchmark.Feeds.MempoolJoin
import MarketBenchmark.Foundation.Labels
import MarketBenchmark.Outbox.Names

/-!
# The filter of the mempool bundles

The endpoint sends a bundle as a JSON text, in a tuple or in an object; the
sentry writes it as one line.  Each leg reads its own form and keeps the bundles
that touch the asset of the coin.
-/

namespace MarketBenchmark.Feeds

open Foundation.Labels

/-! ## The asset of an action -/

def mempoolAssetId (coin : String) : Option Nat :=
  if coin = "BTC" then some 0 else none

def mempoolDirectAssetMatches (value : Option Json) (expected : Nat) : Bool :=
  match value with
  | none => false
  | some value =>
      (["a", "asset"].filterMap value.get).any fun asset =>
        match asset with
        | .number number => decide (number.asU64 = some expected)
        | .string raw => decide (Outbox.parseU64 raw.toList = some expected)
        | _ => false

def mempoolArrayHasAsset (values : Option Json) (expected : Nat) : Bool :=
  match values.bind Json.asArray with
  | none => false
  | some values => values.any fun value => mempoolDirectAssetMatches (some value) expected

def mempoolActionMatchesAsset (action : Option Json) (expected : Nat) : Bool :=
  match action with
  | none => false
  | some action =>
      match (action.get "type").bind Json.asStr with
      | some "order" => mempoolArrayHasAsset (action.get "orders") expected
      | some "cancel" | some "cancelByCloid" =>
          mempoolArrayHasAsset (action.get "cancels") expected
      | some "batchModify" =>
          match (action.get "modifies").bind Json.asArray with
          | none => false
          | some modifies => modifies.any fun modify =>
              mempoolDirectAssetMatches (modify.get "order") expected ||
                mempoolDirectAssetMatches (some modify) expected
      | some "modify" =>
          mempoolDirectAssetMatches (action.get "order") expected ||
            mempoolDirectAssetMatches (some action) expected
      | some "twapOrder" => mempoolDirectAssetMatches (action.get "twap") expected
      | some "twapCancel" => mempoolDirectAssetMatches (some action) expected
      | _ => false

/-! ## Hashes and timestamps -/

def isAsciiHexdigit (symbol : Char) : Bool :=
  ('0' ≤ symbol && symbol ≤ '9') || ('a' ≤ symbol && symbol ≤ 'f') ||
    ('A' ≤ symbol && symbol ≤ 'F')

/-- The limit is on bytes; a hash that passes has one byte for each symbol. -/
def validMempoolTxHash (txHash : String) : Bool :=
  match txHash.toList with
  | '0' :: 'x' :: hex => !hex.isEmpty && decide (hex.length ≤ 128) && hex.all isAsciiHexdigit
  | _ => false

/-- What the collector uses of `chrono`: the instant of a text, in milliseconds since the epoch. -/
structure Chrono where
  rfc3339 : String → Option Int
  naive : String → String → Option Int

def parseMempoolTimestampMs (chrono : Chrono) (timestamp : String) : Option Nat :=
  let timestamp := String.ofList (trim timestamp.toList)
  if timestamp = "" then none
  else
    ((chrono.rfc3339 timestamp).or
      (["%Y-%m-%dT%H:%M:%S%.f", "%Y-%m-%d %H:%M:%S%.f"].findSome? fun format =>
        chrono.naive format timestamp)).bind fun timestampMs =>
      if 0 < timestampMs then some timestampMs.toNat else none

/-! ## The two legs -/

/-- The fields of a `bundle` line that the join needs. -/
structure BundleLine where
  hash : String
  firstRecvNs : Nat
  signedActions : List Json

/-- What the two legs use of `serde_json`: the value of a text and the bundle of a line. -/
structure BundleSerde where
  value : String → Option Json
  bundleLine : List UInt8 → Option BundleLine

/-- The timestamp of a message and the transaction that it carries. -/
def envelope (value : Json) : Option (String × Json) :=
  match value.asArray with
  | some tuple =>
      (tuple.head?.bind Json.asStr).bind fun timestamp =>
        tuple[1]?.map fun transaction => (timestamp, transaction)
  | none =>
      ((((value.get "first_seen_time").or (value.get "time")).or
        (value.get "timestamp")).bind Json.asStr).map fun timestamp => (timestamp, value)

def parseQuicknodeMempoolBundle (serde : BundleSerde) (chrono : Chrono) (payload coin : String) :
    Option EventKey := do
  let value ← serde.value payload
  let (timestamp, transaction) ← envelope value
  if !transaction.isObject then none
  else
    let txHash ← (transaction.get "tx_hash").bind Json.asStr
    let signedActions ← (transaction.get "signed_actions").bind Json.asArray
    let expectedAssetId ← mempoolAssetId coin
    if coin = "" ∨ !validMempoolTxHash txHash ∨ signedActions.isEmpty ∨
        signedActions.any (fun action => !action.isObject) ∨
        !signedActions.any fun signed =>
          mempoolActionMatchesAsset (signed.get "action") expectedAssetId then none
    else
      let eventMs ← parseMempoolTimestampMs chrono timestamp
      some
        { coin := coin
          eventMs := eventMs
          content := .mempool (toAsciiLowercase txHash) }

/-- The bytes with which a `bundle` line starts: `{"type":"bundle",`. -/
def bundlePrefix : List UInt8 :=
  ("\x7b" ++ "\"type\":\"bundle\",").toList.map fun symbol => UInt8.ofNat symbol.toNat

def bundleInput (serde : BundleSerde) (line : List UInt8) (coin : String)
    (received receivedWallMs : Nat) : Option JoinInput :=
  if !bundlePrefix.isPrefixOf line then none
  else do
    let parsed ← serde.bundleLine line
    let expectedAsset ← mempoolAssetId coin
    if !validMempoolTxHash parsed.hash ∨ parsed.signedActions.isEmpty ∨
        !parsed.signedActions.any fun signed =>
          mempoolActionMatchesAsset (signed.get "action") expectedAsset then none
    else
      some (.bundle (toAsciiLowercase parsed.hash) (parsed.firstRecvNs / 1000000) received
        receivedWallMs)

/-! ## One bundle in its three forms -/

/-- The object carries the hash and the signed actions of a bundle. -/
structure HasBundle (transaction : Json) (hash : String) (actions : List Json) : Prop where
  txHash : transaction.get "tx_hash" = some (.string hash)
  signedActions : transaction.get "signed_actions" = some (.array actions)

/-- The two forms in which the endpoint sends a bundle. -/
inductive CarriesBundle (value : Json) (timestamp hash : String) (actions : List Json) : Prop
  | tuple {transaction : Json} {rest : List Json}
      (shape : value = .array (.string timestamp :: transaction :: rest))
      (bundle : HasBundle transaction hash actions)
  | object
      (seen : ((value.get "first_seen_time").or (value.get "time")).or (value.get "timestamp") =
        some (.string timestamp))
      (bundle : HasBundle value hash actions)

/-- What both legs ask of a bundle: a hash, and an action that touches the asset of the coin. -/
def wanted (coin hash : String) (actions : List Json) : Bool :=
  validMempoolTxHash hash &&
    match mempoolAssetId coin with
    | none => false
    | some asset => actions.any fun signed => mempoolActionMatchesAsset (signed.get "action") asset

variable {serde : BundleSerde} {chrono : Chrono} {payload coin timestamp hash : String}
  {value : Json} {actions : List Json} {line : List UInt8}
  {eventMs firstRecvNs received receivedWallMs : Nat}

/-- Both forms are read to the timestamp and the transaction. -/
theorem CarriesBundle.envelope (carries : CarriesBundle value timestamp hash actions) :
    ∃ transaction, Feeds.envelope value = some (timestamp, transaction) ∧
      HasBundle transaction hash actions := by
  cases carries with
  | tuple shape bundle =>
      subst shape
      exact ⟨_, rfl, bundle⟩
  | object seen bundle =>
      refine ⟨value, ?_, bundle⟩
      have notArray : value.asArray = none := by
        have isObject := Json.isObject_of_get bundle.txHash
        cases value with
        | object fields => rfl
        | null | bool | number | string | array => cases isObject
      unfold Feeds.envelope
      rw [notArray, seen]
      rfl

/-- An empty list of actions has no action that passes the test. -/
theorem rejects_iff {valid : Bool} {test : Json → Bool} :
    ((!valid) = true ∨ actions.isEmpty = true ∨ (!actions.any test) = true) ↔
      ¬(valid && actions.any test) = true := by
  cases actions with
  | nil => simp
  | cons first rest =>
      rw [List.isEmpty_cons, Bool.and_eq_true, not_and_or, Bool.not_eq_true', Bool.not_eq_true',
        Bool.not_eq_true, Bool.not_eq_true]
      exact or_congr_right (or_iff_right nofun)

/-- The leg of the endpoint asks for objects in addition. -/
theorem parseQuicknodeMempoolBundle_eq (parsed : serde.value payload = some value)
    (carries : CarriesBundle value timestamp hash actions)
    (timed : parseMempoolTimestampMs chrono timestamp = some eventMs) :
    parseQuicknodeMempoolBundle serde chrono payload coin =
      if wanted coin hash actions ∧ ∀ signed ∈ actions, signed.isObject = true then
        some
          { coin := coin
            eventMs := eventMs
            content := .mempool (toAsciiLowercase hash) }
      else none := by
  obtain ⟨transaction, enveloped, bundle⟩ := carries.envelope
  have isObject := Json.isObject_of_get bundle.txHash
  unfold parseQuicknodeMempoolBundle wanted
  simp only [parsed, enveloped, isObject, bundle.txHash, bundle.signedActions, Json.asStr,
    Json.asArray, Option.bind_some, Option.bind_eq_bind, timed]
  cases known : mempoolAssetId coin with
  | none => simp
  | some asset =>
      have named : coin ≠ "" := by
        intro empty
        rw [empty] at known
        cases known
      have rejects : (coin = "" ∨ (!validMempoolTxHash hash) = true ∨ actions.isEmpty = true ∨
          (actions.any fun action => !action.isObject) = true ∨
          (!actions.any fun signed => mempoolActionMatchesAsset (signed.get "action") asset) =
            true) ↔
          ¬((validMempoolTxHash hash && actions.any fun signed =>
            mempoolActionMatchesAsset (signed.get "action") asset) = true ∧
            ∀ signed ∈ actions, signed.isObject = true) := by
        have strangers : (actions.any fun action => !action.isObject) = true ↔
            ¬∀ signed ∈ actions, signed.isObject = true := by
          simp
        rw [or_iff_right named, not_and_or, ← rejects_iff, strangers, or_assoc, or_assoc]
        exact or_congr_right (or_congr_right or_comm)
      exact (if_congr rejects rfl rfl).trans (ite_not ..)

theorem bundleInput_eq (starts : bundlePrefix <+: line)
    (parsed : serde.bundleLine line = some ⟨hash, firstRecvNs, actions⟩) :
    bundleInput serde line coin received receivedWallMs =
      if wanted coin hash actions then
        some (.bundle (toAsciiLowercase hash) (firstRecvNs / 1000000) received receivedWallMs)
      else none := by
  unfold bundleInput wanted
  simp only [List.isPrefixOf_iff_prefix.mpr starts, parsed, Option.bind_some, Option.bind_eq_bind]
  cases known : mempoolAssetId coin with
  | none => simp
  | some asset =>
      have rejects : ((!validMempoolTxHash hash) = true ∨ actions.isEmpty = true ∨
          (!actions.any fun signed => mempoolActionMatchesAsset (signed.get "action") asset) =
            true) ↔
          ¬(validMempoolTxHash hash && actions.any fun signed =>
            mempoolActionMatchesAsset (signed.get "action") asset) = true := rejects_iff
      exact (if_congr rejects rfl rfl).trans (ite_not ..)

/--
The two legs agree on a bundle exactly when all its signed actions are objects or neither leg wants
it.  What both keep, they keep under the same hash.
-/
theorem same_filter_iff (parsed : serde.value payload = some value)
    (carries : CarriesBundle value timestamp hash actions)
    (timed : parseMempoolTimestampMs chrono timestamp = some eventMs)
    (starts : bundlePrefix <+: line)
    (lineParsed : serde.bundleLine line = some ⟨hash, firstRecvNs, actions⟩) :
    (((parseQuicknodeMempoolBundle serde chrono payload coin).isSome ↔
        (bundleInput serde line coin received receivedWallMs).isSome) ↔
      (∀ signed ∈ actions, signed.isObject = true) ∨ wanted coin hash actions = false) ∧
    ∀ key input, parseQuicknodeMempoolBundle serde chrono payload coin = some key →
      bundleInput serde line coin received receivedWallMs = some input →
      key.content = .mempool (toAsciiLowercase hash) ∧ input.txHash = toAsciiLowercase hash := by
  rw [parseQuicknodeMempoolBundle_eq parsed carries timed, bundleInput_eq starts lineParsed]
  constructor
  · rw [Option.isSome_ite, Option.isSome_ite]
    cases wanted coin hash actions with
    | false => exact iff_of_true (iff_of_false (fun both => nomatch both.1) nofun) (Or.inr rfl)
    | true =>
        rw [or_iff_left nofun]
        constructor
        · exact fun same => (same.mpr rfl).2
        · exact fun objects => iff_of_true ⟨rfl, objects⟩ rfl
  · intro key input keyKept inputKept
    obtain ⟨_, sameKey⟩ := Option.ite_none_right_eq_some.mp keyKept
    obtain ⟨_, sameInput⟩ := Option.ite_none_right_eq_some.mp inputKept
    cases sameKey
    cases sameInput
    exact ⟨rfl, rfl⟩

/-! ## A stranger among the actions -/

/-- A signed order of the asset of BTC. -/
def btcOrder : Json :=
  .object [("action", .object [("type", .string "order"),
    ("orders", .array [.object [("a", .number (.posInt 0))]])])]

/-- The texts of the signed actions, after what stands in front of them:
`{"action":{"type":"order","orders":[{"a":0}]}}`. -/
def actionsText (front : String) : String :=
  "[" ++ front ++ braced ("\"action\":" ++
    braced ("\"type\":\"order\",\"orders\":[" ++ braced "\"a\":0" ++ "]")) ++ "]"

/-- `["1970-01-01T00:00:01Z",{"tx_hash":"0xABC","signed_actions":[…]}]` -/
def payloadText (front : String) : String :=
  "[\"1970-01-01T00:00:01Z\"," ++
    braced ("\"tx_hash\":\"0xABC\",\"signed_actions\":" ++ actionsText front) ++ "]"

/-- `{"type":"bundle","hash":"0xABC","first_recv_ns":1000000,"signed_actions":[…]}` -/
def lineText (front : String) : List UInt8 :=
  bundlePrefix ++ ("\"hash\":\"0xABC\",\"first_recv_ns\":1000000,\"signed_actions\":" ++
    actionsText front ++ "\x7d").toList.map fun symbol => UInt8.ofNat symbol.toNat

/-- The value of the payload. -/
def payloadValue (strangers : List Json) : Json :=
  .array [.string "1970-01-01T00:00:01Z", .object [("tx_hash", .string "0xABC"),
    ("signed_actions", .array (strangers ++ [btcOrder]))]]

/-- Deserialising the two texts, and no others. -/
def bundleSerde (front : String) (strangers : List Json) : BundleSerde where
  value text := if text = payloadText front then some (payloadValue strangers) else none
  bundleLine line :=
    if line = lineText front then some ⟨"0xABC", 1000000, strangers ++ [btcOrder]⟩ else none

def sampleChrono : Chrono where
  rfc3339 text := if text = "1970-01-01T00:00:01Z" then some 1000 else none
  naive _ _ := none

theorem bundleSerde_value (front : String) (strangers : List Json) :
    (bundleSerde front strangers).value (payloadText front) = some (payloadValue strangers) :=
  if_pos rfl

theorem bundleSerde_bundleLine (front : String) (strangers : List Json) :
    (bundleSerde front strangers).bundleLine (lineText front) =
      some ⟨"0xABC", 1000000, strangers ++ [btcOrder]⟩ :=
  if_pos rfl

theorem bundlePrefix_lineText (front : String) : bundlePrefix <+: lineText front :=
  List.prefix_append _ _

theorem sample_carries (strangers : List Json) :
    CarriesBundle (payloadValue strangers) "1970-01-01T00:00:01Z" "0xABC"
      (strangers ++ [btcOrder]) :=
  .tuple rfl ⟨rfl, rfl⟩

theorem sample_timed :
    parseMempoolTimestampMs sampleChrono "1970-01-01T00:00:01Z" = some 1000 := by
  decide

theorem order_kept_by_both :
    (parseQuicknodeMempoolBundle (bundleSerde "" []) sampleChrono (payloadText "") "BTC").isSome ↔
      (bundleInput (bundleSerde "" []) (lineText "") "BTC" 5 6).isSome := by
  refine (same_filter_iff (bundleSerde_value "" []) (sample_carries []) sample_timed
    (bundlePrefix_lineText "") (bundleSerde_bundleLine "" [])).1.mpr
      (Or.inl fun signed member => ?_)
  rw [List.mem_singleton.mp member]
  rfl

/-- A text among the signed actions: the endpoint drops the bundle, the sentry keeps it. -/
theorem stranger_kept_by_sentry_alone :
    let serde := bundleSerde "\"x\"," [.string "x"]
    serde.value (payloadText "\"x\",") = some (payloadValue [.string "x"]) ∧
      CarriesBundle (payloadValue [.string "x"]) "1970-01-01T00:00:01Z" "0xABC"
        [.string "x", btcOrder] ∧
      parseMempoolTimestampMs sampleChrono "1970-01-01T00:00:01Z" = some 1000 ∧
      bundlePrefix <+: lineText "\"x\"," ∧
      serde.bundleLine (lineText "\"x\",") = some ⟨"0xABC", 1000000, [.string "x", btcOrder]⟩ ∧
      parseQuicknodeMempoolBundle serde sampleChrono (payloadText "\"x\",") "BTC" = none ∧
      bundleInput serde (lineText "\"x\",") "BTC" 5 6 = some (.bundle "0xabc" 1 5 6) := by
  have parsed := bundleSerde_value "\"x\"," [.string "x"]
  have lineParsed := bundleSerde_bundleLine "\"x\"," [.string "x"]
  have carries := sample_carries [.string "x"]
  have starts := bundlePrefix_lineText "\"x\","
  have wants : wanted "BTC" "0xABC" ([.string "x"] ++ [btcOrder]) = true := by decide
  refine ⟨parsed, carries, sample_timed, starts, lineParsed, ?_, ?_⟩
  · rw [parseQuicknodeMempoolBundle_eq parsed carries sample_timed]
    exact if_neg fun both => absurd (both.2 (.string "x") List.mem_cons_self) nofun
  · rw [bundleInput_eq starts lineParsed, if_pos wants]
    decide

end MarketBenchmark.Feeds
