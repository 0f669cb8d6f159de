import MarketBenchmark.Feeds.Json
import MarketBenchmark.Foundation.Results
import MarketBenchmark.Peering.Decoded
import MarketBenchmark.Peering.HexIdentities

/-!
# Lines of the reference feed

The feed reads the blocks that a node applied and prints a compact line for
each.  What the node printed has no type, so every lookup can fail; an exception
that `compact` names skips the line, any other one ends the feed.  Python's
reader and printer of JSON and the collector's parser are libraries.
-/

namespace MarketBenchmark.ReferenceFeed

open Feeds
open Foundation.Results

/-! ## Python expressions on JSON values -/

/-- How an expression ends without a value. -/
inductive Raised where
  /-- `KeyError`, `ValueError`, `TypeError` or `IndexError`. -/
  | caught
  /-- `AttributeError` -/
  | uncaught
  deriving DecidableEq

/-- `value[key]`; only an object has names. -/
def field (value : Json) (key : String) : Except Raised Json :=
  match value.get key with
  | some found => .ok found
  | none => .error .caught

/-- `value[index]` -/
def element (value : Json) (index : Nat) : Except Raised Json :=
  match value with
  | .array elements => (elements[index]?).elim (.error .caught) .ok
  | .string text =>
      (text.toList[index]?).elim (.error .caught) fun symbol =>
        .ok (.string (String.singleton symbol))
  | _ => .error .caught

/-- `value.get(key, default)`; only an object has this method. -/
def getOr (value : Json) (key : String) (default : Json) : Except Raised Json :=
  match value with
  | .object fields => .ok ((fields.lookup key).getD default)
  | _ => .error .uncaught

/-- What a loop over a value goes through. -/
def items : Json → Except Raised (List Json)
  | .array elements => .ok elements
  | .string text => .ok (text.toList.map fun symbol => .string (String.singleton symbol))
  | .object fields => .ok (fields.map fun entry => .string entry.1)
  | _ => .error .caught

/-- `len(value)` -/
def len : Json → Except Raised Nat
  | .array elements => .ok elements.length
  | .string text => .ok text.length
  | .object fields => .ok fields.length
  | _ => .error .caught

/-- Whether a condition on a value holds; a float is zero with either sign. -/
def truthy : Json → Bool
  | .null => false
  | .bool value => value
  | .number (.posInt value) => value ≠ 0
  | .number (.negInt value) => value ≠ 0
  | .number (.float bits) => bits % 2 ^ 63 ≠ 0
  | .string text => text ≠ ""
  | .array elements => !elements.isEmpty
  | .object fields => !fields.isEmpty

/-- `hex32`; only a text has `startswith`. -/
def hex32Value : Json → Except Raised Json
  | .null => .ok .null
  | .string text => .ok (.string (justifyHex32 text))
  | _ => .error .uncaught

/-! ## Compact lines -/

/-- What `compact` prints for a block. -/
structure FeedRow where
  r : Json
  t : Json
  b : List (Json × Json × Nat)

/-- The body of the loop over the bundles. -/
def compactEntry (entry : Json) : Except Raised (Json × Json × Nat) := do
  let bundle ← element entry 1
  let actions ← getOr bundle "signed_actions" (.array [])
  let firstR ←
    if truthy actions then do
      let signature ← field (← element actions 0) "signature"
      hex32Value (← field signature "r")
    else pure .null
  let hash ← hex32Value (← element entry 0)
  let count ← len actions
  return (hash, firstR, count)

/-- `compact` of what was read from a line. -/
def compactValue (value : Json) : Except Raised FeedRow := do
  let block ← field value "abci_block"
  let round ← field block "round"
  let time ← field block "time"
  let entries ← items (← getOr block "signed_action_bundles" (.array []))
  let bundles ← entries.mapM compactEntry
  return { r := round, t := time, b := bundles }

/-- `compact` without the printing; `loads` is `json.loads`. -/
def compact (loads : List UInt8 → Option Json) (raw : List UInt8) : Except Raised FeedRow :=
  match loads raw with
  | none => .error .caught
  | some value => compactValue value

/-! ## What the collector reads of a line -/

def readU64 : Json → Option Nat
  | .number number => number.asU64.filter (· < 2 ^ 64)
  | _ => none

def readOptionalText : Json → Option (Option String)
  | .null => some none
  | .string text => some (some text)
  | _ => none

namespace FeedRow

def decodeBundle (bundle : Json × Json × Nat) : Option (String × Option String × Nat) := do
  let hash ← bundle.1.asStr
  let firstR ← readOptionalText bundle.2.1
  let count ← if bundle.2.2 < 2 ^ 64 then some bundle.2.2 else none
  return (hash, firstR, count)

/-- The fields of a row as `ReferenceLine` has them. -/
def decode (row : FeedRow) : Option ReferenceLine := do
  let round ← readU64 row.r
  let time ← row.t.asStr
  let bundles ← row.b.mapM decodeBundle
  return { r := round, t := time, b := bundles }

def ofBundle (bundle : String × Option String × Nat) : Json × Json × Nat :=
  (.string bundle.1, (bundle.2.1.map Json.string).getD .null, bundle.2.2)

/-- The row with the fields of a line. -/
def ofLine (line : ReferenceLine) : FeedRow where
  r := .number (.posInt line.r)
  t := .string line.t
  b := line.b.map ofBundle

end FeedRow

/-- What a line of the node tells the collector through the feed. -/
def told (loads : List UInt8 → Option Json) (raw : List UInt8) : Option ReferenceLine :=
  (compact loads raw).toOption.bind FeedRow.decode

/-! ## Blocks as a node prints them -/

/-- The entry of a bundle: its hash, its first signature value and its number of actions. -/
inductive ShowsBundle : Json → String × Option String × Nat → Prop
  | empty {hash : String} {inner : Json} {rest : List Json}
      (actions : inner.get "signed_actions" = some (.array [])) :
      ShowsBundle (.array (.string hash :: inner :: rest)) (hash, none, 0)
  | signed {hash text : String} {inner first signature : Json} {rest others : List Json}
      (actions : inner.get "signed_actions" = some (.array (first :: others)))
      (signed : first.get "signature" = some signature)
      (value : signature.get "r" = some (.string text))
      (small : others.length + 1 < 2 ^ 64) :
      ShowsBundle (.array (.string hash :: inner :: rest)) (hash, some text, others.length + 1)

/-- The value is a block of the node, with whatever other fields. -/
structure Shows (value : Json) (line : ReferenceLine) : Prop where
  small : line.r < 2 ^ 64
  block : ∃ block entries, value.get "abci_block" = some block ∧
    block.get "round" = some (.number (.posInt line.r)) ∧
    block.get "time" = some (.string line.t) ∧
    block.get "signed_action_bundles" = some (.array entries) ∧
    List.Forall₂ ShowsBundle entries line.b

/-- The line as the feed prints it. -/
def justified (line : ReferenceLine) : ReferenceLine :=
  { line with b := line.b.map feedBundle }

section Lookups

variable {value found : Json} {key : String}

theorem field_of_get (present : value.get key = some found) : field value key = .ok found := by
  unfold field
  rw [present]

theorem getOr_of_get (present : value.get key = some found) (default : Json) :
    getOr value key default = .ok found := by
  cases value with
  | object fields =>
      have inFields : fields.lookup key = some found := present
      unfold getOr
      dsimp only
      rw [inFields]
      rfl
  | null | bool | number | string | array => cases present

end Lookups

/-- `compact` prints the bundle of an entry. -/
theorem compactEntry_shows {entry : Json} {bundle : String × Option String × Nat}
    (shows : ShowsBundle entry bundle) :
    compactEntry entry = .ok (FeedRow.ofBundle (feedBundle bundle)) := by
  unfold compactEntry
  cases shows with
  | empty actions =>
      refine bind_eq_ok_iff.mpr ⟨_, rfl, bind_eq_ok_iff.mpr ⟨_, getOr_of_get actions _, ?_⟩⟩
      rw [if_neg (by decide)]
      rfl
  | signed actions signed value small =>
      refine bind_eq_ok_iff.mpr ⟨_, rfl, bind_eq_ok_iff.mpr ⟨_, getOr_of_get actions _, ?_⟩⟩
      rw [if_pos (by rfl)]
      refine bind_eq_ok_iff.mpr ⟨_, rfl, bind_eq_ok_iff.mpr ⟨_, field_of_get signed, ?_⟩⟩
      exact bind_eq_ok_iff.mpr ⟨_, field_of_get value, rfl⟩

/-- `compact` prints a block of the node. -/
theorem compactValue_shows {value : Json} {line : ReferenceLine} (shows : Shows value line) :
    compactValue value = .ok (FeedRow.ofLine (justified line)) := by
  obtain ⟨_, block, entries, found, round, time, listed, bundles⟩ := shows
  have printed : entries.mapM compactEntry = .ok (FeedRow.ofLine (justified line)).b := by
    refine mapM_eq_ok_iff.mpr ?_
    unfold FeedRow.ofLine justified
    dsimp only
    rw [List.map_map, List.forall₂_map_right_iff]
    exact bundles.imp fun _ _ shows => compactEntry_shows shows
  unfold compactValue
  refine bind_eq_ok_iff.mpr ⟨_, field_of_get found, bind_eq_ok_iff.mpr ⟨_, field_of_get round, ?_⟩⟩
  refine bind_eq_ok_iff.mpr ⟨_, field_of_get time, bind_eq_ok_iff.mpr
    ⟨_, getOr_of_get listed _, ?_⟩⟩
  exact bind_eq_ok_iff.mpr ⟨_, rfl, bind_eq_ok_iff.mpr ⟨_, printed, rfl⟩⟩

theorem decodeBundle_ofBundle {bundle : String × Option String × Nat}
    (small : bundle.2.2 < 2 ^ 64) :
    FeedRow.decodeBundle (FeedRow.ofBundle bundle) = some bundle := by
  obtain ⟨hash, firstR, count⟩ := bundle
  cases firstR with
  | none => exact if_pos small
  | some text => exact if_pos small

/-- The collector reads back the line that the feed printed. -/
theorem decode_ofLine {line : ReferenceLine} (small : line.r < 2 ^ 64)
    (counts : ∀ bundle ∈ line.b, bundle.2.2 < 2 ^ 64) :
    (FeedRow.ofLine line).decode = some line := by
  obtain ⟨round, time, bundles⟩ := line
  have bundlesRead : (bundles.map FeedRow.ofBundle).mapM FeedRow.decodeBundle = some bundles := by
    clear small
    induction bundles with
    | nil => rfl
    | cons bundle rest ih =>
        obtain ⟨here, later⟩ := List.forall_mem_cons.mp counts
        rw [List.map_cons, List.mapM_cons, decodeBundle_ofBundle here, ih later]
        rfl
  have roundRead : readU64 (.number (.posInt round)) = some round := by
    unfold readU64 Number.asU64
    dsimp only
    rw [Option.filter_some, if_pos (decide_eq_true small)]
  unfold FeedRow.decode FeedRow.ofLine
  dsimp only at small ⊢
  rw [roundRead, bundlesRead]
  rfl

/-- The numbers of actions fit. -/
theorem counts_of_shows {entries : List Json} {bundles : List (String × Option String × Nat)}
    (shows : List.Forall₂ ShowsBundle entries bundles) :
    ∀ bundle ∈ bundles, bundle.2.2 < 2 ^ 64 := by
  induction shows with
  | nil => exact nofun
  | cons here _ ih =>
      refine List.forall_mem_cons.mpr ⟨?_, ih⟩
      cases here with
      | empty actions => exact Nat.two_pow_pos 64
      | signed actions signed value small => exact small

/-- Through the feed, a block of the node tells the collector its line. -/
theorem told_shows {loads : List UInt8 → Option Json} {raw : List UInt8} {value : Json}
    {line : ReferenceLine} (loaded : loads raw = some value) (shows : Shows value line) :
    told loads raw = some (justified line) := by
  have counts : ∀ bundle ∈ (justified line).b, bundle.2.2 < 2 ^ 64 := by
    obtain ⟨_, _, entries, _, _, _, _, bundles⟩ := shows
    intro printed member
    obtain ⟨bundle, inLine, rfl⟩ := List.mem_map.mp member
    exact counts_of_shows bundles bundle inLine
  have compacted : compact loads raw = .ok (FeedRow.ofLine (justified line)) := by
    unfold compact
    rw [loaded]
    exact compactValue_shows shows
  unfold told
  rw [compacted]
  exact decode_ofLine shows.small counts

/-! ## What the legs make of a line -/

/-- The node writes every hash and every signature value of the block in hexadecimal. -/
def Written (line : ReferenceLine) : Prop :=
  ∀ bundle ∈ line.b, (∃ value, Writes value bundle.1) ∧
    ∀ text ∈ bundle.2.1, ∃ value, Writes value text

/-- The texts that the feed prints are read like those of the node. -/
theorem mapM_parse_justify {texts : List String}
    (written : ∀ text ∈ texts, ∃ value, Writes value text) :
    (texts.map justifyHex32).mapM parseHex32 = texts.mapM parseHex32 := by
  induction texts with
  | nil => rfl
  | cons text rest ih =>
      obtain ⟨⟨value, writes⟩, later⟩ := List.forall_mem_cons.mp written
      have parsed := parseHex32_iff_writes.mpr writes
      rw [List.map_cons, List.mapM_cons, List.mapM_cons, parse_justifyHex32 parsed, parsed,
        ih later]

/-- A wire leg does with the printed line what it would do with the one of the node. -/
theorem trackReference_justified {line : ReferenceLine} (written : Written line)
    (parseReferenceTimeMs : String → Option Nat) (assembly : Assembly) (now : Nat) :
    assembly.trackReference parseReferenceTimeMs (justified line) now =
      assembly.trackReference parseReferenceTimeMs line now := by
  have sigs : Assembly.bundleSigs (justified line) = Assembly.bundleSigs line :=
    bundleSigs_feedBundle fun bundle member => (written bundle member).2
  unfold Assembly.trackReference Assembly.referenceRound
  rw [sigs]
  rfl

/-- So does the decoded leg. -/
theorem decoded_trackReference_justified {line : ReferenceLine} (written : Written line)
    (parseReferenceTimeMs : String → Option Nat) (assembly : DecodedAssembly) (now : Nat) :
    assembly.trackReference parseReferenceTimeMs (justified line) now =
      assembly.trackReference parseReferenceTimeMs line now := by
  have texts : (justified line).b.map Prod.fst = (line.b.map Prod.fst).map justifyHex32 := by
    unfold justified
    rw [List.map_map, List.map_map]
    rfl
  have hashes : DecodedAssembly.sortedHashes ((justified line).b.map Prod.fst) =
      DecodedAssembly.sortedHashes (line.b.map Prod.fst) := by
    unfold DecodedAssembly.sortedHashes
    rw [texts, mapM_parse_justify]
    intro text member
    obtain ⟨bundle, inLine, rfl⟩ := List.mem_map.mp member
    exact (written bundle inLine).1
  unfold DecodedAssembly.trackReference
  rw [hashes]
  rfl

end MarketBenchmark.ReferenceFeed
