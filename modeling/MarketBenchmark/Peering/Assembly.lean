import MarketBenchmark.Model
import MarketBenchmark.Foundation.HashMaps

/-!
# Assembly of peering rounds

A round is ready when its ordering record and every referenced bundle arrived;
the reference feed names the round's producer time and bundles.  The parser of
reference times is a library of its own, so it is a parameter here.
-/

namespace MarketBenchmark

open Foundation.HashMaps

/-! ## Limits -/

def roundWindow : Nat := 5000
def roundRetain : Nat := 2000
def bundleRetain : Nat := fromSecs 120
def incompleteDeadline : Nat := fromSecs 5
def subscriptionWarmup : Nat := fromSecs 60

/-! ## 32-byte values -/

abbrev Hash32 : Type := Vector UInt8 32

/-- The value of an ASCII hexadecimal digit. -/
def hexDigit (symbol : Char) : Option Nat :=
  if '0' ≤ symbol ∧ symbol ≤ '9' then some (symbol.toNat - '0'.toNat)
  else if 'a' ≤ symbol ∧ symbol ≤ 'f' then some (symbol.toNat - 'a'.toNat + 10)
  else if 'A' ≤ symbol ∧ symbol ≤ 'F' then some (symbol.toNat - 'A'.toNat + 10)
  else none

def stripHexPrefix : List Char → List Char
  | '0' :: 'x' :: rest => rest
  | text => text

/-- `parse_hex32`: at most 64 digits, padded with zeros on the left. -/
def parseHex32 (text : String) : Option Hash32 :=
  match (stripHexPrefix text.toList).mapM hexDigit with
  | none => none
  | some digits =>
      if digits.length = 0 ∨ 64 < digits.length then none
      else
        let padded := List.replicate (64 - digits.length) 0 ++ digits
        some (Vector.ofFn fun index =>
          UInt8.ofNat (16 * padded.getD (2 * index) 0 + padded.getD (2 * index + 1) 0))

/-- Signature values are printed without leading zeros. -/
example : parseHex32 "0x1" = parseHex32 "0x01" ∧ parseHex32 "0xzz" = none := by decide

/-! ## State -/

/-- One line of the reference feed. -/
structure ReferenceLine where
  r : Nat
  t : String
  b : List (String × Option String × Nat)
  deriving DecidableEq, Repr

structure ReferenceRound where
  timeMs : Nat
  bundleSigs : List Hash32
  deriving DecidableEq

structure TrackedRound where
  ordering : Option (Nat × Nat) := none
  reference : Option ReferenceRound := none
  firstSeen : Option Nat := none
  reportedGap : Bool := false
  deriving DecidableEq

/-- `bundles` maps a signature to its arrival, its wall time and when it was seen. -/
structure Assembly where
  provider : Provider
  coin : String
  rounds : HashMap Nat TrackedRound
  bundles : HashMap Hash32 (Nat × Nat × Nat)
  maxRefRound : Nat
  emittedHighWater : Nat
  gapsNoOrdering : Nat
  gapsMissingBundle : Nat
  completed : Nat
  scoreFromMs : Nat

namespace Assembly

/-- `Assembly::new`; `nowMs` is the wall time of the subscription. -/
def new (provider : Provider) (coin : String) (nowMs : Nat) : Assembly where
  provider := provider
  coin := coin
  rounds := ∅
  bundles := ∅
  maxRefRound := 0
  emittedHighWater := 0
  gapsNoOrdering := 0
  gapsMissingBundle := 0
  completed := 0
  scoreFromMs := nowMs + asMillis subscriptionWarmup

/-! ## Tracking -/

/-- `round.abs_diff(max_ref_round)` is within the window of a named round. -/
def Plausible (assembly : Assembly) (round : Nat) : Prop :=
  assembly.maxRefRound ≠ 0 ∧
    round - assembly.maxRefRound + (assembly.maxRefRound - round) ≤ roundWindow

instance (assembly : Assembly) (round : Nat) : Decidable (assembly.Plausible round) :=
  inferInstanceAs (Decidable (_ ∧ _))

/-- The tracked round, or a new one. -/
def entry (assembly : Assembly) (round : Nat) : TrackedRound :=
  (assembly.rounds.lookup round).getD {}

def trackOrdering (assembly : Assembly) (round arrival wallMs : Nat) : Assembly :=
  if ¬assembly.Plausible round then assembly
  else
    let entry := assembly.entry round
    { assembly with
      rounds := assembly.rounds.insert round
        { entry with
          firstSeen := some (entry.firstSeen.getD arrival)
          -- the first ordering copy wins
          ordering := some (entry.ordering.getD (arrival, wallMs)) } }

def trackBundle (assembly : Assembly) (sigR : Hash32) (arrival wallMs now : Nat) : Assembly :=
  match assembly.bundles.lookup sigR with
  | some _ => assembly
  | none => { assembly with bundles := assembly.bundles.insert sigR (arrival, wallMs, now) }

/-- The signatures of a line, if every bundle has one. -/
def bundleSigs (line : ReferenceLine) : Option (List Hash32) :=
  line.b.mapM fun bundle => bundle.2.1.bind parseHex32

/-- What a line says about its round: its time parses and its bundles have signatures. -/
def referenceRound (parseReferenceTimeMs : String → Option Nat) (line : ReferenceLine) :
    Option ReferenceRound :=
  match parseReferenceTimeMs line.t with
  | none => none
  | some timeMs => (bundleSigs line).map fun sigs => { timeMs := timeMs, bundleSigs := sigs }

def trackReference (parseReferenceTimeMs : String → Option Nat) (assembly : Assembly)
    (line : ReferenceLine) (now : Nat) : Assembly :=
  match referenceRound parseReferenceTimeMs line with
  | none => assembly
  | some reference =>
      let assembly := { assembly with maxRefRound := max assembly.maxRefRound line.r }
      if reference.timeMs < assembly.scoreFromMs then
        { assembly with rounds := assembly.rounds.erase line.r }
      else
        let entry := assembly.entry line.r
        { assembly with
          rounds := assembly.rounds.insert line.r
            { entry with
              firstSeen := some (entry.firstSeen.getD now)
              reference := some reference } }

/-! ## Draining -/

/-- What a drain does with a round: nothing, mark it silently, count it as one of the
two gaps, or complete it. -/
inductive Fate where
  | passed
  | unnamed
  | noOrdering
  | missingBundle
  | ready (receivedAt receivedWallMs timeMs : Nat)
  deriving DecidableEq

/-- The latest arrival among the ordering and the bundles, if all of them arrived. -/
def readyAt (bundles : HashMap Hash32 (Nat × Nat × Nat)) :
    List Hash32 → Nat × Nat → Option (Nat × Nat)
  | [], ready => some ready
  | sig :: rest, ready =>
      match bundles.lookup sig with
      | none => none
      | some (arrived, wall, _) =>
          readyAt bundles rest (if ready.1 < arrived then (arrived, wall) else ready)

/-- The round was first seen longer than the deadline ago. -/
def overdue (tracked : TrackedRound) (now : Nat) : Bool :=
  match tracked.firstSeen with
  | none => false
  | some seen => decide (incompleteDeadline < now - seen)

/-- The body of the loop of `drain_ready`. -/
def fate (assembly : Assembly) (now : Nat) (tracked : TrackedRound) : Fate :=
  if tracked.reportedGap then .passed
  else
    match tracked.ordering, tracked.reference with
    | some ordering, some reference =>
        match readyAt assembly.bundles reference.bundleSigs ordering with
        | some (receivedAt, receivedWallMs) =>
            .ready receivedAt receivedWallMs reference.timeMs
        | none => if overdue tracked now then .missingBundle else .passed
    | none, some _ => if overdue tracked now then .noOrdering else .passed
    | _, none => if overdue tracked now then .unnamed else .passed

/-- A round whose fate is decided is not looked at again. -/
def report (fate : Fate) (tracked : TrackedRound) : TrackedRound :=
  if fate = .passed then tracked else { tracked with reportedGap := true }

def prune (assembly : Assembly) (now : Nat) : Assembly :=
  let floor := assembly.maxRefRound - roundRetain
  { assembly with
    rounds := assembly.rounds.retain fun round _ => decide (floor ≤ round)
    bundles := assembly.bundles.retain fun _ bundle => decide (now - bundle.2.2 < bundleRetain) }

/-- The rounds with their fates, in iteration order. -/
def fates (order : IterationOrder) (assembly : Assembly) (now : Nat) : List (Nat × Fate) :=
  (order.arrange assembly.rounds.entries).map fun entry =>
    (entry.1, assembly.fate now entry.2)

/-- The event of a completed round. -/
def readyEvent (assembly : Assembly) : Nat × Fate → Option MarketEvent
  | (round, .ready receivedAt receivedWallMs timeMs) =>
      some
        { provider := assembly.provider
          key := { coin := assembly.coin, eventMs := timeMs, content := .peering round }
          received := receivedAt
          receivedWallMs := receivedWallMs }
  | _ => none

/-- `ready`: the events of the completed rounds. -/
def ready (order : IterationOrder) (assembly : Assembly) (now : Nat) : List MarketEvent :=
  (assembly.fates order now).filterMap assembly.readyEvent

def Fate.isGap : Fate → Bool
  | .noOrdering | .missingBundle => true
  | _ => false

/-- The rounds that `expired_gaps` counts. -/
def expiredGaps (order : IterationOrder) (assembly : Assembly) (now : Nat) : List Nat :=
  ((assembly.fates order now).filter fun entry => entry.2.isGap).map Prod.fst

/-- `drain_ready`: the ready events and the number of expired rounds. -/
def drainReady (order : IterationOrder) (assembly : Assembly) (now : Nat) :
    Assembly × List MarketEvent × Nat :=
  let fates := assembly.fates order now
  let ready := assembly.ready order now
  let completedRounds := (fates.filter fun entry =>
    (assembly.readyEvent entry).isSome).map Prod.fst
  let drained :=
    { assembly with
      rounds := assembly.rounds.mapValues fun _ tracked =>
        report (assembly.fate now tracked) tracked
      emittedHighWater := completedRounds.foldl max assembly.emittedHighWater
      gapsNoOrdering := assembly.gapsNoOrdering +
        fates.countP fun entry : Nat × Fate => decide (entry.2 = Fate.noOrdering)
      gapsMissingBundle := assembly.gapsMissingBundle +
        fates.countP fun entry : Nat × Fate => decide (entry.2 = Fate.missingBundle)
      completed := assembly.completed + ready.length }
  (drained.prune now, ready, (assembly.expiredGaps order now).length)

end Assembly

end MarketBenchmark
