import MarketBenchmark.Foundation.Panics
import MarketBenchmark.Foundation.Endian
import MarketBenchmark.Peering.Assembly

/-!
# Ordering records

The parser of ordering payloads, in both layout epochs.  Every index it reads
and every sum it forms is checked as the language checks it, so that a panic
of the code is a panic here.  A loop carries a bound on its rounds; outrunning
the bound is a panic of its own.
-/

namespace MarketBenchmark

open Foundation.Panics
open Foundation.Endian

/-! ## Limits -/

/-- `TAIL_TC_MAX`: timeout certificates that one record's tail may carry. -/
def tailTcMax : Nat := 8

/-- `RECORD_TAIL_MAX`: the longest certificate tail. -/
def recordTailMax : Nat := 5 + 9 + 1 + 5 * tailTcMax + 4 + 5 + 5

/-- `MAX_BUNDLE_HASHES`: hashes that a structurally parsed record may carry. -/
def maxBundleHashes : Nat := 1024

/-- `u32::MAX + 1` -/
def u32Bound : Nat := 2 ^ 32

/-- `value.wrapping_add(1)` of a `u32`. -/
def wrappingSucc (value : Nat) : Nat := (value + 1) % u32Bound

/-- `first.wrapping_sub(second)` of two `u32`. -/
def wrappingSub (first second : Nat) : Nat := (first + u32Bound - second) % u32Bound

structure BlockHeader where
  proposer : Vector UInt8 20
  round : Nat
  txHashes : List Hash32
  deriving DecidableEq

/-- A record's certificate tail. -/
structure Tail where
  activation : Nat
  round : Nat
  stop : Nat
  deriving DecidableEq

/-- The parsed parent slot, and what the own-record locator needs. -/
structure Slot where
  header : BlockHeader
  legacy : Bool
  activation : Nat
  stop : Nat
  deriving DecidableEq

/-! ## Numbers -/

/-- `read_varint`: the value and the index one past it. -/
def readVarint (data : Slice) (i : Nat) : Fallible (Nat × Nat) := do
  let tag ← data.get i
  if tag = 0xfb then
    let bytes ← data.getAll i [1, 2]
    pure (fromLe bytes, ← addUsize i 3)
  else if tag = 0xfc then
    let bytes ← data.getAll i [1, 2, 3, 4]
    pure (fromLe bytes, ← addUsize i 5)
  else if tag = 0xfd then
    let part ← data.getRange (← addUsize i 1) (← addUsize i 9)
    let bytes ← copyArray 8 part
    pure (fromLe bytes.toList, ← addUsize i 9)
  else if tag = 0xfe ∨ tag = 0xff then failure
  else pure (tag.toNat, ← addUsize i 1)

/-- `u32_at` -/
def u32At (payload : Slice) (i : Nat) : Fallible Nat := do
  let bytes ← payload.getAll i [0, 1, 2, 3]
  pure (fromLe bytes)

/-- Read varints one after the other; only the index past the last one counts. -/
def skipVarints (payload : Slice) : Nat → Nat → Fallible Nat
  | 0, p => pure p
  | count + 1, p => do
      let (_, next) ← readVarint payload p
      skipVarints payload count next

/-- `slot_start`: the index of the parent slot's proposer. -/
def slotStart (payload : Slice) : Fallible Nat :=
  if payload.bytes.head? ≠ some 0x00 then failure
  else do
    let p ← skipVarints payload 8 1
    let (_, next) ← readVarint payload p
    pure next

/-! ## Certificate tails -/

/-- The timed-out rounds of so many certificates, and the index past them. -/
def timeoutRounds (payload : Slice) : Nat → Nat → List Nat → Fallible (List Nat × Nat)
  | 0, k, rounds => pure (rounds, k)
  | count + 1, k, rounds => do
      let tag ← payload.get k
      if tag ≠ 0xfc then failure
      else
        let round ← u32At payload (← addUsize k 1)
        timeoutRounds payload count (← addUsize k 5) (rounds ++ [round])

/-- The certificates at `j`, if a small count and a certificate stand there. -/
def certificates (payload : Slice) (j : Nat) : Fallible (List Nat × Nat) := do
  match ← liftM (readVarint payload j).run with
  | none => pure ([], j)
  | some (count, k) =>
      if 1 ≤ count ∧ count ≤ tailTcMax ∧ payload.bytes[k]? = some 0xfc then
        timeoutRounds payload count k []
      else pure ([], j)

/-- Skip small bytes, at most the given number; how many there were, and the index past them. -/
def smallBytes (payload : Slice) : Nat → Nat → Nat → Fallible (Nat × Nat)
  | left, j, smalls => do
      let byte ← payload.get j
      match left with
      | 0 => pure (smalls, j)
      | left + 1 =>
          if byte < 0xfb then smallBytes payload left (← addUsize j 1) (← addUsize smalls 1)
          else pure (smalls, j)

/-- `parse_tail` -/
def parseTail (payload : Slice) (start : Nat) : Fallible Tail := do
  let tag ← payload.get start
  if tag ≠ 0xfc then failure
  else
    let second ← payload.get (← addUsize start 5)
    if second = 0xfe ∨ second = 0xff then failure
    else
      let (_, j) ← readVarint payload (← addUsize start 5)
      let (rounds, j) ← certificates payload j
      let (smalls, j) ← smallBytes payload 4 j 0
      if smalls = 0 then failure
      else
        let activationTag ← payload.get j
        if activationTag ≠ 0xfc then failure
        else
          let parentTag ← payload.get (← addUsize j 5)
          if parentTag ≠ 0xfc then failure
          else
            let activation ← u32At payload (← addUsize j 1)
            let qcParent ← u32At payload (← addUsize j 6)
            pure
              { activation := activation
                round := wrappingSucc (rounds.max?.getD qcParent)
                stop := ← addUsize j 10 }

/-- `record_tail` -/
def recordTail (payload : Slice) (start : Nat) : Fallible (Nat × Nat × Nat) := do
  let tail ← parseTail payload start
  pure (tail.activation, tail.round, tail.stop)

/-! ## The parent slot -/

/-- Copy so many hashes, one after the other. -/
def copyHashes (payload : Slice) : Nat → Nat → Checked (List Hash32)
  | 0, _ => pure []
  | count + 1, k => do
      let hash ← copyArray 32 (← payload.range k (← addUsize k 32))
      let rest ← copyHashes payload count (← addUsize k 32)
      pure (hash :: rest)

/-- `read_hashes` -/
def readHashes (payload : Slice) (k count : Nat) : Fallible (List Hash32) :=
  if maxBundleHashes < count then failure
  else do
    let stop ← checkedAdd k (← mulUsize count 32)
    if payload.length < stop then failure
    else copyHashes payload count k

/-- `parse_slot`: the parent slot in either layout. -/
def parseSlot (payload : Slice) : Fallible Slot := do
  let p ← slotStart payload
  let proposerEnd ← checkedAdd p 20
  let part ← payload.getRange p proposerEnd
  let proposer ← copyArray 20 part
  let tag ← payload.get proposerEnd
  if tag = 0xfc then
    -- the old layout: the record leads with its round
    let bytes ← payload.getAll proposerEnd [1, 2, 3, 4]
    let (count, k) ← readVarint payload (← addUsize proposerEnd 5)
    let txHashes ← readHashes payload k count
    let stop ← addUsize k (← mulUsize txHashes.length 32)
    pure
      { header := { proposer := proposer, round := fromLe bytes, txHashes := txHashes }
        legacy := true
        activation := 0
        stop := stop }
  else
    let (count, k) ← readVarint payload proposerEnd
    let txHashes ← readHashes payload k count
    let tail ← parseTail payload (← addUsize k (← mulUsize txHashes.length 32))
    pure
      { header := { proposer := proposer, round := tail.round, txHashes := txHashes }
        legacy := false
        activation := tail.activation
        stop := tail.stop }

/-! ## The own record -/

/-- The ten bytes at `j` read `[fc activation][fc parent]` with the parent in the window. -/
def isTailEnd (payload : Slice) (activation : List UInt8) (loParent hiParent j : Nat) :
    Checked Bool := do
  let tag ← payload.byteAt j
  if tag ≠ 0xfc then pure false
  else
    let part ← payload.range (← addUsize j 1) (← addUsize j 5)
    if part.bytes ≠ activation then pure false
    else
      let parentTag ← payload.byteAt (← addUsize j 5)
      if parentTag ≠ 0xfc then pure false
      else
        let first ← payload.byteAt (← addUsize j 6)
        let second ← payload.byteAt (← addUsize j 7)
        let third ← payload.byteAt (← addUsize j 8)
        let fourth ← payload.byteAt (← addUsize j 9)
        let parent := fromLe [first, second, third, fourth]
        pure (decide (loParent ≤ parent ∧ parent ≤ hiParent))

/-- The ends of all tails from `j` on; the first argument bounds the rounds of the loop. -/
def tailEnds (payload : Slice) (activation : List UInt8) (loParent hiParent : Nat) :
    Nat → Nat → List Nat → Checked (List Nat)
  | 0, _, _ => throw .divergence
  | fuel + 1, j, ends => do
      let stop ← addUsize j 10
      if stop ≤ payload.length then
        let isEnd ← isTailEnd payload activation loParent hiParent j
        tailEnds payload activation loParent hiParent fuel (← addUsize j 1)
          (if isEnd then ends ++ [stop] else ends)
      else pure ends

/-- One round of the search: the index of the count byte, if `count` stands there and
the record that it opens ends in a tail of the given length. -/
def ownCandidate (payload : Slice) (slot : Slot) (ownRound : Nat) :
    Nat × Nat × Nat → Fallible Nat
  | (stop, count, tailLen) => do
      let hashesEnd ← checkedSub stop tailLen
      let idx ← checkedSub hashesEnd (← addUsize 1 (← mulUsize 32 count))
      if idx < 30 then failure
      else
        let countByte ← payload.byteAt idx
        if countByte.toNat ≠ count then failure
        else
          let signers ← payload.byteAt (← subUsize idx 21)
          if 0xfb ≤ signers then failure
          else
            let opening ← payload.byteAt (← subUsize idx 30)
            if opening ≠ 0xfd then failure
            else
              let tail ← liftM (recordTail payload hashesEnd).run
              if tail ≠ some (slot.activation, ownRound, stop) then failure
              else pure idx

/-- The rounds of the search: every end, every count byte, every tail length. -/
def searchSpace (ends : List Nat) : List (Nat × Nat × Nat) :=
  ends.flatMap fun stop => (List.range 251).flatMap fun count =>
    (List.range' 20 (recordTailMax - 19)).map fun tailLen => (stop, count, tailLen)

/-- Search the count byte of the own record; no result when two indices qualify. -/
def searchCount (payload : Slice) (slot : Slot) (ownRound : Nat) :
    List (Nat × Nat × Nat) → Option Nat → Checked (Option (Option Nat))
  | [], countIdx => pure (some countIdx)
  | round :: rest, countIdx => do
      match ← (ownCandidate payload slot ownRound round).run with
      | none => searchCount payload slot ownRound rest countIdx
      | some idx =>
          if countIdx.any fun other => decide (other ≠ idx) then pure none
          else searchCount payload slot ownRound rest (some idx)

/-- The parent record, if it has hashes. -/
def Slot.records (slot : Slot) : List BlockHeader :=
  if slot.header.txHashes = [] then [] else [slot.header]

/-- `tailed_records`: the parent record and the own record, if it is found and has hashes. -/
def tailedRecords (payload : Slice) (slot : Slot) : Checked (List BlockHeader) := do
  let out := slot.records
  let ownRound := wrappingSucc slot.header.round
  let ends ← tailEnds payload (toLe 4 slot.activation)
    (wrappingSub slot.header.round tailTcMax) slot.header.round
    (payload.length + 1) slot.stop []
  if ends = [] then pure out
  else
    match ← searchCount payload slot ownRound (searchSpace ends) none with
    | none => pure out
    | some none => pure out
    | some (some idx) =>
        let count ← payload.byteAt idx
        if count = 0 then pure out
        else
          match ← (readHashes payload (← addUsize idx 1) count.toNat).run with
          | none => pure out
          | some txHashes =>
              let proposer ← copyArray 20 (← payload.range (← subUsize idx 20) idx)
              pure (out ++ [{ proposer := proposer, round := ownRound, txHashes := txHashes }])

/-! ## All records of a payload -/

/-- The record that a round marker at `p` leads, and the index past it. -/
def markedRecord (payload : Slice) (roundLo roundHi p : Nat) : Fallible (BlockHeader × Nat) := do
  let tag ← payload.byteAt p
  if tag ≠ 0xfc then failure
  else
    let first ← payload.byteAt (← addUsize p 1)
    let second ← payload.byteAt (← addUsize p 2)
    let third ← payload.byteAt (← addUsize p 3)
    let fourth ← payload.byteAt (← addUsize p 4)
    let round := fromLe [first, second, third, fourth]
    if ¬(roundLo ≤ round ∧ round ≤ roundHi) then failure
    else
      let (count, k) ← readVarint payload (← addUsize p 5)
      if ¬(1 ≤ count ∧ count ≤ 64) then failure
      else
        let stop ← addUsize k (← mulUsize count 32)
        if payload.length < stop then failure
        else
          let proposer ← copyArray 20 (← payload.range (← subUsize p 20) p)
          let txHashes ← copyHashes payload count k
          pure ({ proposer := proposer, round := round, txHashes := txHashes }, stop)

/-- The loop of `scan_block_records`; the first argument bounds its rounds. -/
def scanFrom (payload : Slice) (roundLo roundHi : Nat) :
    Nat → Nat → List BlockHeader → Checked (List BlockHeader)
  | 0, _, _ => throw .divergence
  | fuel + 1, p, out => do
      if (← addUsize p 5) ≤ payload.length then
        match ← (markedRecord payload roundLo roundHi p).run with
        | some (header, next) => scanFrom payload roundLo roundHi fuel next (out ++ [header])
        | none => scanFrom payload roundLo roundHi fuel (← addUsize p 1) out
      else pure out

/-- `scan_block_records` -/
def scanBlockRecords (payload : Slice) (roundLo roundHi : Nat) : Checked (List BlockHeader) :=
  scanFrom payload roundLo roundHi (payload.length + 1) 20 []

/-- `find_block_records` -/
def findBlockRecords (payload : Slice) (roundLo roundHi : Nat) : Checked (List BlockHeader) := do
  match ← (parseSlot payload).run with
  | some slot =>
      if slot.legacy then scanBlockRecords payload roundLo roundHi
      else if slot.header.round < roundLo ∨ roundHi < slot.header.round then pure []
      else tailedRecords payload slot
  | none => scanBlockRecords payload roundLo roundHi

/-- `ordering_rounds`: the rounds, with their bundle counts, around the anchor. -/
def orderingRounds (payload : Slice) (anchor window : Nat) : Checked (List (Nat × Nat)) :=
  if anchor = 0 then pure []
  else do
    let lo := min (anchor - window) (u32Bound - 1)
    let hi := min (min (anchor + window) (2 ^ 64 - 1)) (u32Bound - 1)
    let records ← findBlockRecords payload lo hi
    pure (records.map fun record => (record.round, record.txHashes.length))

end MarketBenchmark
