import MarketBenchmark.Peering.Assembly
import MarketBenchmark.Foundation.Runs

/-!
# The join of decoded lines

The box's own leg reads whole decoded blocks and compares their bundle hashes
with those of the reference feed.  It is a second round join with its own
anchoring, expiry and gap rules.
-/

namespace MarketBenchmark

open Foundation.HashMaps Foundation.Runs

/-- One line of the decoded stream: its type, and the bundle hashes of a block. -/
structure DecodedLine where
  kind : String
  round : Nat
  complete : Bool
  signedActionBundles : List String
  deriving DecidableEq

structure DecodedRound where
  line : Option (Nat × Nat × List Hash32) := none
  reference : Option (Nat × List Hash32) := none
  firstSeen : Option Nat := none
  reported : Bool := false
  deriving DecidableEq

structure DecodedAssembly where
  coin : String
  rounds : HashMap Nat DecodedRound
  maxRefRound : Nat

namespace DecodedAssembly

def new (coin : String) : DecodedAssembly where
  coin := coin
  rounds := ∅
  maxRefRound := 0

/-! ## Tracking -/

/-- The order of byte arrays. -/
def hashBefore (first second : Hash32) : Bool := first.toList ≤ second.toList

/-- The hashes in `sort_unstable` order, if all of them can be read. -/
def sortedHashes (texts : List String) : Option (List Hash32) :=
  (texts.mapM parseHex32).map fun hashes => hashes.mergeSort hashBefore

/-- The round lies within the window of a named round. -/
def Plausible (assembly : DecodedAssembly) (round : Nat) : Prop :=
  assembly.maxRefRound ≠ 0 ∧
    round - assembly.maxRefRound + (assembly.maxRefRound - round) ≤ roundWindow

instance (assembly : DecodedAssembly) (round : Nat) : Decidable (assembly.Plausible round) :=
  inferInstanceAs (Decidable (_ ∧ _))

/-- The tracked round, or a new one. -/
def entry (assembly : DecodedAssembly) (round : Nat) : DecodedRound :=
  (assembly.rounds.lookup round).getD {}

def trackLine (assembly : DecodedAssembly) (line : DecodedLine) (arrival wallMs : Nat) :
    DecodedAssembly :=
  if line.kind ≠ "block" ∧ line.kind ≠ "block_patch" then assembly
  else if ¬assembly.Plausible line.round then assembly
  else
    let before := assembly.entry line.round
    let seen := { before with firstSeen := some (before.firstSeen.getD arrival) }
    let tracked :=
      if line.complete = false ∨ before.line.isSome then seen
      else
        match sortedHashes line.signedActionBundles with
        | none => seen
        | some hashes => { seen with line := some (arrival, wallMs, hashes) }
    { assembly with rounds := assembly.rounds.insert line.round tracked }

def trackReference (parseReferenceTimeMs : String → Option Nat) (assembly : DecodedAssembly)
    (line : ReferenceLine) (now : Nat) : DecodedAssembly :=
  match parseReferenceTimeMs line.t, sortedHashes (line.b.map Prod.fst) with
  | some timeMs, some hashes =>
      let before := assembly.entry line.r
      { assembly with
        maxRefRound := max assembly.maxRefRound line.r
        rounds := assembly.rounds.insert line.r
          { before with
            firstSeen := some (before.firstSeen.getD now)
            reference := some (timeMs, hashes) } }
  | _, _ => assembly

/-! ## Draining -/

/-- What a drain does with a round: nothing, count it as a gap because its hashes differ or its
deadline passed, or complete it. -/
inductive Fate where
  | passed
  | mismatched
  | expired
  | ready (arrived wall timeMs : Nat)
  deriving DecidableEq

/-- The round was first seen longer than the deadline ago. -/
def overdue (tracked : DecodedRound) (now : Nat) : Bool :=
  tracked.firstSeen.any fun seen => incompleteDeadline < now - seen

/-- The body of the loop of `drain_ready`. -/
def fate (now : Nat) (tracked : DecodedRound) : Fate :=
  if tracked.reported then .passed
  else
    match tracked.line, tracked.reference with
    | some (arrived, wall, hashes), some (timeMs, referenceHashes) =>
        if hashes ≠ referenceHashes then .mismatched else .ready arrived wall timeMs
    | _, _ => if overdue tracked now then .expired else .passed

def Fate.isGap : Fate → Bool
  | .mismatched | .expired => true
  | _ => false

/-- The event of a completed round. -/
def readyEvent (assembly : DecodedAssembly) : Nat × Fate → Option MarketEvent
  | (round, .ready arrived wall timeMs) =>
      some
        { provider := .quickNodeVpc
          key := { coin := assembly.coin, eventMs := timeMs, content := .peering round }
          received := arrived
          receivedWallMs := wall }
  | _ => none

/-- The rounds with their fates, in iteration order. -/
def fates (order : IterationOrder) (assembly : DecodedAssembly) (now : Nat) : List (Nat × Fate) :=
  (order.arrange assembly.rounds.entries).map fun entry => (entry.1, fate now entry.2)

/-- The rounds that `gaps` counts. -/
def gapRounds (order : IterationOrder) (assembly : DecodedAssembly) (now : Nat) : List Nat :=
  ((assembly.fates order now).filter fun entry => entry.2.isGap).map Prod.fst

/-- `drain_ready`: the ready events and the number of rounds that closed without one. -/
def drainReady (order : IterationOrder) (assembly : DecodedAssembly) (now : Nat) :
    DecodedAssembly × List MarketEvent × Nat :=
  let floor := assembly.maxRefRound - roundRetain
  let reported := assembly.rounds.mapValues fun _ tracked =>
    if fate now tracked = .passed then tracked else { tracked with reported := true }
  ({ assembly with rounds := reported.retain fun round _ => decide (floor ≤ round) },
    (assembly.fates order now).filterMap assembly.readyEvent,
    (assembly.gapRounds order now).length)

/-! ## Runs -/

/-- A call of the session's loop. -/
inductive Call where
  | trackLine (line : DecodedLine) (arrival wallMs : Nat)
  | trackReference (line : ReferenceLine) (now : Nat)
  | drainReady (order : IterationOrder) (now : Nat)

variable (parseReferenceTimeMs : String → Option Nat)

def next (assembly : DecodedAssembly) : Call → DecodedAssembly
  | .trackLine line arrival wallMs => assembly.trackLine line arrival wallMs
  | .trackReference line now => trackReference parseReferenceTimeMs assembly line now
  | .drainReady order now => (assembly.drainReady order now).1

def step (assembly : DecodedAssembly) (call : Call) : Option DecodedAssembly :=
  some (assembly.next parseReferenceTimeMs call)

/-- The events that a call returns. -/
def emitted (assembly : DecodedAssembly) : Call → List MarketEvent
  | .drainReady order now => (assembly.drainReady order now).2.1
  | _ => []

/-- The rounds in the gap count that a call returns. -/
def expired (assembly : DecodedAssembly) : Call → List Nat
  | .drainReady order now => assembly.gapRounds order now
  | _ => []

end DecodedAssembly

end MarketBenchmark
