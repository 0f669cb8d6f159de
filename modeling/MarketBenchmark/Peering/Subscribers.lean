import MarketBenchmark.Foundation.Labels
import MarketBenchmark.Foundation.Runs
import MarketBenchmark.Peering.FeedServer

/-!
# Subscribers hear consecutive blocks

A broadcast reaches all clients or drops them, and a connection is accepted
between two broadcasts.  So what a reader has queued or handed on are the first
of the lines that the feed printed since it accepted the connection, and what
arrived or is on its way is a part of the text of the others.
-/

namespace MarketBenchmark.ReferenceFeed

open Foundation
open Foundation.Labels
open Foundation.Relays
open Feeds

variable {libraries : FeedLibraries}

/-! ## What the libraries guarantee -/

namespace FeedLibraries

variable {row : FeedRow}

theorem ReadsBack.newline_not_mem (reads : libraries.ReadsBack row) :
    newlineByte ∉ libraries.dumps row := by
  intro member
  exact absurd (reads.ascii newlineByte member).1 (by decide)

theorem ReadsBack.isUtf8 (reads : libraries.ReadsBack row) {part : List UInt8}
    (isPart : part <+: libraries.dumps row) : isUtf8 part = true := by
  unfold Feeds.isUtf8
  rw [ByteArray.validateUTF8_eq_true_iff]
  exact Utf8.isValidUTF8_of_ascii fun byte member => (reads.ascii byte (isPart.subset member)).2

theorem ReadsBack.dropReturn (reads : libraries.ReadsBack row) :
    dropReturn (libraries.dumps row) = libraries.dumps row := by
  unfold ReferenceFeed.dropReturn
  refine if_neg fun last => ?_
  exact absurd (reads.ascii 13 (List.mem_of_getLast? last)).1 (by decide)

end FeedLibraries

/-! ## The rows of lines -/

/-- The rows that the feed prints of lines. -/
def rows (libraries : FeedLibraries) (lines : List (List UInt8)) : List FeedRow :=
  lines.filterMap fun raw => (compact libraries.loads raw).toOption

theorem rows_append (first second : List (List UInt8)) :
    rows libraries (first ++ second) = rows libraries first ++ rows libraries second :=
  List.filterMap_append

theorem rows_singleton {raw : List UInt8} {row : FeedRow}
    (compacted : compact libraries.loads raw = .ok row) : rows libraries [raw] = [row] := by
  unfold rows
  rw [List.filterMap_cons, compacted]
  rfl

theorem rows_singleton_of_error {raw : List UInt8} {raised : Raised}
    (failed : compact libraries.loads raw = .error raised) : rows libraries [raw] = [] := by
  unfold rows
  rw [List.filterMap_cons, failed]
  rfl

theorem filterMap_decode_rows (lines : List (List UInt8)) :
    (rows libraries lines).filterMap FeedRow.decode = lines.filterMap (told libraries.loads) := by
  unfold rows
  rw [List.filterMap_filterMap]
  rfl

theorem readsBack_of_mem_rows (documented : libraries.Documented) (lines : List (List UInt8))
    {row : FeedRow} (member : row ∈ rows libraries lines) : libraries.ReadsBack row := by
  obtain ⟨raw, _, printed⟩ := List.mem_filterMap.mp member
  exact documented raw row (Results.toOption_eq_some_iff.mp printed)

/-! ## One connection -/

/-- The text of rows on a connection. -/
abbrev textOfRows (libraries : FeedLibraries) (printed : List FeedRow) : List UInt8 :=
  textOf newlineByte libraries.dumps printed

/-- What the reader still has to cut is a part of the text of the rows that it has not handed on,
and all of it as long as the client is served. -/
structure Relays (libraries : FeedLibraries) (s : Subscription) (front back : List FeedRow) :
    Prop where
  heard : s.heard ++ s.queue = front.filterMap FeedRow.decode
  arriving : s.reading = true → s.text ++ s.inFlight <+: textOfRows libraries back
  all : s.reading = true → s.served = true → s.text ++ s.inFlight = textOfRows libraries back

/-- The connection relays the rows of the lines since it was accepted. -/
structure Follows (libraries : FeedLibraries) (lines : List (List UInt8)) (s : Subscription) :
    Prop where
  since : s.since ≤ lines.length
  bounded : s.queue.length ≤ referenceQueue
  relayed : ∃ front back, rows libraries (lines.drop s.since) = front ++ back ∧
    Relays libraries s front back

namespace Follows

variable {lines : List (List UInt8)} {s after : Subscription}

theorem accepted (lines : List (List UInt8)) (served : Bool) :
    Follows libraries lines (.accepted lines.length served) where
  since := Nat.le_refl _
  bounded := Nat.zero_le _
  relayed := by
    refine ⟨[], [], ?_, rfl, fun _ => List.nil_prefix, fun _ _ => rfl⟩
    change rows libraries (lines.drop lines.length) = []
    rw [List.drop_length]
    rfl

/-- The feed reads a line of which it prints nothing. -/
theorem skip (follows : Follows libraries lines s) {raw : List UInt8} {raised : Raised}
    (failed : compact libraries.loads raw = .error raised) :
    Follows libraries (lines ++ [raw]) s where
  since := by
    rw [List.length_append]
    exact Nat.le_add_right_of_le follows.since
  bounded := follows.bounded
  relayed := by
    obtain ⟨front, back, split, relays⟩ := follows.relayed
    refine ⟨front, back, ?_, relays⟩
    rw [List.drop_append_of_le_length follows.since, rows_append, rows_singleton_of_error failed,
      List.append_nil]
    exact split

theorem unserve (follows : Follows libraries lines s) : Follows libraries lines s.unserve where
  since := follows.since
  bounded := follows.bounded
  relayed := by
    obtain ⟨front, back, split, relays⟩ := follows.relayed
    exact ⟨front, back, split, relays.heard, relays.arriving, fun _ served => nomatch served⟩

/-- The feed prints a row of a line, which reaches the client or drops it. -/
theorem send (follows : Follows libraries lines s) {raw : List UInt8} {row : FeedRow}
    (compacted : compact libraries.loads raw = .ok row) (failed : Option Nat) :
    Follows libraries (lines ++ [raw])
      (s.send (libraries.dumps row ++ [newlineByte]) failed) := by
  obtain ⟨front, back, split, heard, arriving, all⟩ := follows.relayed
  have since : s.since ≤ (lines ++ [raw]).length := by
    rw [List.length_append]
    exact Nat.le_add_right_of_le follows.since
  have rowsNow : rows libraries ((lines ++ [raw]).drop s.since) = front ++ (back ++ [row]) := by
    rw [List.drop_append_of_le_length follows.since, rows_append, rows_singleton compacted, split,
      List.append_assoc]
  have text : textOfRows libraries (back ++ [row]) =
      textOfRows libraries back ++ (libraries.dumps row ++ [newlineByte]) := by
    rw [textOfRows, textOf_append, textOf_singleton]
  unfold Subscription.send
  by_cases served : s.served = true
  · rw [if_pos served]
    cases failed with
    | none =>
        refine ⟨since, follows.bounded, front, back ++ [row], rowsNow, heard, ?_, ?_⟩
        · intro reading
          rw [text, ← List.append_assoc, all reading served]
        · intro reading _
          rw [text, ← List.append_assoc, all reading served]
    | some count =>
        refine ⟨since, follows.bounded, front, back ++ [row], rowsNow, heard, ?_, nofun⟩
        intro reading
        rw [text, ← List.append_assoc, all reading served]
        exact (List.prefix_append_right_inj _).mpr (List.take_prefix count _)
  · rw [if_neg served]
    refine ⟨since, follows.bounded, front, back ++ [row], rowsNow, heard, ?_, ?_⟩
    · intro reading
      rw [text]
      exact (arriving reading).trans (List.prefix_append _ _)
    · intro _ isServed
      exact absurd isServed served

/-! ### The steps of the reader -/

/-- The reader hands on a line: what it parses of it is queued if there is room. -/
theorem hand_spec {fromStr : List UInt8 → Option ReferenceLine} {line : List UInt8}
    (handed : s.hand fromStr line = some after) :
    after = { s with queue := s.queue ++ (fromStr line).toList } ∧
      (s.queue.length ≤ referenceQueue → after.queue.length ≤ referenceQueue) := by
  unfold Subscription.hand at handed
  cases parsed : fromStr line with
  | none =>
      rw [parsed] at handed
      cases handed
      refine ⟨?_, id⟩
      rw [Option.toList_none, List.append_nil]
  | some found =>
      rw [parsed] at handed
      dsimp only at handed
      split at handed
      next room =>
        cases handed
        refine ⟨rfl, fun _ => ?_⟩
        rw [List.length_append]
        exact room
      · cases handed

/-- The reader's queue goes on with the next row. -/
theorem heard_next {front : List FeedRow} {row : FeedRow}
    (heard : s.heard ++ s.queue = front.filterMap FeedRow.decode) :
    s.heard ++ (s.queue ++ row.decode.toList) = (front ++ [row]).filterMap FeedRow.decode := by
  rw [← List.append_assoc, heard, List.filterMap_append, List.filterMap_cons]
  cases row.decode <;> rfl

/-- A whole line that arrived is the text of the next row. -/
theorem next (follows : Follows libraries lines s) (documented : libraries.Documented)
    (stepped : s.step libraries.fromStr .next = some after) : Follows libraries lines after := by
  obtain ⟨front, back, split, heard, arriving, all⟩ := follows.relayed
  have reads : ∀ row ∈ back, libraries.ReadsBack row := fun row member =>
    readsBack_of_mem_rows documented (lines.drop s.since)
      (split ▸ List.mem_append_right front member)
  simp only [Subscription.step] at stepped
  split at stepped
  next reading =>
    split at stepped
    · cases stepped
    next line rest cut =>
      obtain ⟨whole, unfinished⟩ := cutFirst_eq_some cut
      have arrived := arriving reading
      rw [whole, List.append_assoc, List.cons_append] at arrived
      obtain ⟨row, later, rfl, same, behind⟩ :=
        next_of_line (fun row member => (reads row member).newline_not_mem) unfinished arrived
      have readsRow := reads row List.mem_cons_self
      rw [same, if_pos (readsRow.isUtf8 (List.prefix_refl _)), readsRow.dropReturn] at stepped
      obtain ⟨rfl, bounded⟩ := hand_spec stepped
      refine ⟨follows.since, bounded follows.bounded, front ++ [row], later, ?_, ?_, ?_, ?_⟩
      · rw [split, List.append_assoc]
        rfl
      · rw [readsRow.whole]
        exact heard_next heard
      · exact fun _ => behind
      · intro _ served
        have equal := all reading served
        rw [whole, same, textOfRows, textOf_cons, List.append_assoc, List.cons_append] at equal
        exact (List.cons.inj (List.append_cancel_left equal)).2
  · cases stepped

/-- An unfinished line at the end of the stream is a whole row without its end, or no JSON. -/
theorem finish (follows : Follows libraries lines s) (documented : libraries.Documented)
    (stepped : s.step libraries.fromStr .finish = some after) : Follows libraries lines after := by
  obtain ⟨front, back, split, heard, arriving, all⟩ := follows.relayed
  simp only [Subscription.step] at stepped
  split at stepped
  next ended =>
    obtain ⟨reading, _, nothing, unfinished⟩ := ended
    split at stepped
    · cases stepped
      exact ⟨follows.since, follows.bounded, front, back, split, heard, nofun, nofun⟩
    next remaining =>
      obtain ⟨rfl, bounded⟩ := hand_spec stepped
      have arrived := arriving reading
      rw [nothing, List.append_nil] at arrived
      obtain ⟨row, later, rfl, isPart⟩ :=
        next_of_unfinished (fun empty => remaining (Or.inl empty)) unfinished arrived
      have readsRow : libraries.ReadsBack row :=
        readsBack_of_mem_rows documented (lines.drop s.since)
          (split ▸ List.mem_append_right front List.mem_cons_self)
      by_cases whole : s.text = libraries.dumps row
      · refine ⟨follows.since, bounded follows.bounded, front ++ [row], later, ?_, ?_, nofun, nofun⟩
        · rw [split, List.append_assoc]
          rfl
        · rw [whole, readsRow.whole]
          exact heard_next heard
      · refine ⟨follows.since, bounded follows.bounded, front, row :: later, split, ?_, nofun,
          nofun⟩
        rw [readsRow.torn s.text isPart whole, Option.toList_none, List.append_nil]
        exact heard
  · cases stepped

theorem step (follows : Follows libraries lines s) (documented : libraries.Documented)
    {action : ReaderAction} (stepped : s.step libraries.fromStr action = some after) :
    Follows libraries lines after := by
  cases action with
  | next => exact follows.next documented stepped
  | finish => exact follows.finish documented stepped
  | arrive count =>
      obtain ⟨front, back, split, heard, arriving, all⟩ := follows.relayed
      simp only [Subscription.step] at stepped
      split at stepped
      · cases stepped
        have moved : s.text ++ s.inFlight.take count ++ s.inFlight.drop count =
            s.text ++ s.inFlight := by
          rw [List.append_assoc, List.take_append_drop]
        refine ⟨follows.since, follows.bounded, front, back, split, heard, ?_, ?_⟩
        · exact fun reading => moved ▸ arriving reading
        · exact fun reading served => moved.trans (all reading served)
      · cases stepped
  | hear =>
      obtain ⟨front, back, split, heard, arriving, all⟩ := follows.relayed
      simp only [Subscription.step] at stepped
      split at stepped
      · cases stepped
      next line rest queued =>
        cases stepped
        have bounded := follows.bounded
        rw [queued] at heard bounded
        refine ⟨follows.since, Nat.le_of_succ_le bounded, front, back, split, ?_, arriving, all⟩
        rw [← heard, List.append_assoc]
        rfl
  | lose =>
      obtain ⟨front, back, split, heard, _, _⟩ := follows.relayed
      cases stepped
      exact ⟨follows.since, follows.bounded, front, back, split, heard, nofun, nofun⟩

end Follows

/-- The reader does not see whether the feed still serves it. -/
theorem served_of_step {fromStr : List UInt8 → Option ReferenceLine} {s after : Subscription}
    {action : ReaderAction} (stepped : s.step fromStr action = some after) :
    after.served = s.served := by
  cases action with
  | next =>
      simp only [Subscription.step] at stepped
      split at stepped
      · split at stepped
        · cases stepped
        · split at stepped
          · rw [(Follows.hand_spec stepped).1]
          · cases stepped
            rfl
      · cases stepped
  | finish =>
      simp only [Subscription.step] at stepped
      split at stepped
      · split at stepped
        · cases stepped
          rfl
        · rw [(Follows.hand_spec stepped).1]
      · cases stepped
  | arrive count =>
      simp only [Subscription.step] at stepped
      split at stepped
      · cases stepped
        rfl
      · cases stepped
  | hear =>
      simp only [Subscription.step] at stepped
      split at stepped
      · cases stepped
      · cases stepped
        rfl
  | lose =>
      cases stepped
      rfl

/-! ## The feed -/

/-- No more clients than allowed, and every connection follows the lines. -/
structure Serves (libraries : FeedLibraries) (maxClients : Nat) (feed : FeedServer) : Prop where
  few : feed.clients ≤ maxClients
  follows : ∀ s ∈ feed.subscriptions, Follows libraries feed.lines s

namespace Serves

variable {maxClients : Nat} {feed : FeedServer}

theorem start : Serves libraries maxClients .start where
  few := Nat.zero_le _
  follows := nofun

theorem accept (serves : Serves libraries maxClients feed) :
    Serves libraries maxClients
      { feed with
        subscriptions := feed.subscriptions ++
          [.accepted feed.lines.length (decide (feed.clients < maxClients))] } where
  few := by
    have few := serves.few
    change (feed.subscriptions ++ _).countP Subscription.served ≤ maxClients
    rw [List.countP_append, List.countP_singleton]
    change feed.clients + (if decide (feed.clients < maxClients) = true then 1 else 0) ≤ maxClients
    split
    next room => exact of_decide_eq_true room
    · exact few
  follows := by
    intro s member
    rcases List.mem_append.mp member with before | here
    · exact serves.follows s before
    · rw [List.mem_singleton.mp here]
      exact .accepted _ _

/-- Sending to all clients serves no new one. -/
theorem countP_send_le (line : List UInt8) (failing : Nat → Option Nat)
    (subscriptions : List Subscription) :
    (subscriptions.mapIdx fun index => Subscription.send line (failing index)).countP
      Subscription.served ≤ subscriptions.countP Subscription.served := by
  induction subscriptions generalizing failing with
  | nil => exact Nat.le_refl _
  | cons s rest ih =>
      have later := ih fun index => failing (index + 1)
      rw [List.mapIdx_cons, List.countP_cons, List.countP_cons]
      refine Nat.add_le_add later ?_
      unfold Subscription.send
      by_cases served : s.served = true
      · rw [if_pos served, if_pos served]
        cases failing 0 with
        | none => exact (if_pos served).le
        | some count => exact Nat.zero_le _
      · rw [if_neg served]

theorem broadcast (serves : Serves libraries maxClients feed) {raw : List UInt8} {row : FeedRow}
    (compacted : compact libraries.loads raw = .ok row) (failing : Nat → Option Nat) :
    Serves libraries maxClients
      (FeedServer.broadcast { feed with lines := feed.lines ++ [raw] }
        (libraries.dumps row ++ [newlineByte]) failing) where
  few := Nat.le_trans (countP_send_le _ failing feed.subscriptions) serves.few
  follows := by
    intro s member
    obtain ⟨index, within, same⟩ := List.mem_mapIdx.mp member
    rw [← same]
    exact (serves.follows _ (List.getElem_mem within)).send compacted (failing index)

theorem stop (serves : Serves libraries maxClients feed) :
    Serves libraries maxClients feed.stop where
  few := by
    have none : feed.stop.clients = 0 := by
      refine List.countP_eq_zero.mpr fun s member => ?_
      obtain ⟨before, _, rfl⟩ := List.mem_map.mp member
      exact Bool.false_ne_true
    rw [none]
    exact Nat.zero_le _
  follows := by
    intro s member
    obtain ⟨before, inFeed, rfl⟩ := List.mem_map.mp member
    exact (serves.follows before inFeed).unserve

theorem finishLine (serves : Serves libraries maxClients feed) (raw : List UInt8)
    (failing : Nat → Option Nat) :
    Serves libraries maxClients
      (FeedServer.finishLine libraries { feed with lines := feed.lines ++ [raw] } raw failing) := by
  have skipped : ∀ {raised}, compact libraries.loads raw = .error raised →
      Serves libraries maxClients { feed with lines := feed.lines ++ [raw] } := fun failed =>
    ⟨serves.few, fun s member => (serves.follows s member).skip failed⟩
  unfold FeedServer.finishLine
  cases compacted : compact libraries.loads raw with
  | ok row => exact serves.broadcast compacted failing
  | error raised =>
      cases raised with
      | caught => exact skipped compacted
      | uncaught => exact (skipped compacted).stop

/-- The buffer is of no account. -/
theorem withBuffer (serves : Serves libraries maxClients feed) (buffer : List UInt8) :
    Serves libraries maxClients { feed with buffer := buffer } :=
  ⟨serves.few, serves.follows⟩

theorem reader (serves : Serves libraries maxClients feed) (documented : libraries.Documented)
    {index : Nat} {s next : Subscription} {action : ReaderAction}
    (here : feed.subscriptions[index]? = some s)
    (stepped : s.step libraries.fromStr action = some next) :
    Serves libraries maxClients
      { feed with subscriptions := feed.subscriptions.set index next } where
  few := by
    obtain ⟨within, same⟩ := List.getElem?_eq_some_iff.mp here
    refine Nat.le_trans (Nat.le_of_eq ?_) serves.few
    change (feed.subscriptions.set index next).countP Subscription.served =
      feed.subscriptions.countP Subscription.served
    rw [List.countP_set within, same, served_of_step stepped]
    refine Nat.sub_add_cancel ?_
    split
    next served => exact List.countP_pos_iff.mpr ⟨s, List.mem_of_getElem? here, served⟩
    · exact Nat.zero_le _
  follows := by
    intro other member
    rcases List.mem_or_eq_of_mem_set member with before | rfl
    · exact serves.follows other before
    · exact (serves.follows s (List.mem_of_getElem? here)).step documented stepped

theorem step (serves : Serves libraries maxClients feed) (documented : libraries.Documented)
    {action : FeedAction} {next : FeedServer}
    (stepped : feed.step libraries maxClients action = some next) :
    Serves libraries maxClients next := by
  cases action with
  | read chunk =>
      simp only [FeedServer.step] at stepped
      split at stepped
      · cases stepped
        exact serves.withBuffer _
      · cases stepped
  | line failing =>
      simp only [FeedServer.step] at stepped
      split at stepped
      · cases stepped
      · obtain ⟨⟨raw, rest⟩, _, rfl⟩ := Option.map_eq_some_iff.mp stepped
        exact (serves.withBuffer rest).finishLine raw failing
  | rotate =>
      simp only [FeedServer.step] at stepped
      split at stepped
      · cases stepped
        exact serves.withBuffer _
      · cases stepped
  | accept =>
      simp only [FeedServer.step] at stepped
      split at stepped
      · cases stepped
      · cases stepped
        exact serves.accept
  | stop =>
      cases stepped
      exact serves.stop
  | reader index action =>
      obtain ⟨s, here, stepped⟩ := Option.bind_eq_some_iff.mp stepped
      obtain ⟨after, acted, rfl⟩ := Option.map_eq_some_iff.mp stepped
      exact serves.reader documented here acted

end Serves

/-! ## What the legs hear -/

/-- Every line shows its block of the node. -/
def ShowBlocks (libraries : FeedLibraries) (lines : List (List UInt8))
    (blocks : List ReferenceLine) : Prop :=
  List.Forall₂ (fun raw block => ∃ value, libraries.loads raw = some value ∧ Shows value block)
    lines blocks

theorem filterMap_told {lines : List (List UInt8)} {blocks : List ReferenceLine}
    (shown : ShowBlocks libraries lines blocks) :
    lines.filterMap (told libraries.loads) = blocks.map justified := by
  induction shown with
  | nil => rfl
  | cons here _ ih =>
      obtain ⟨value, loaded, shows⟩ := here
      rw [List.filterMap_cons, told_shows loaded shows, ih]
      rfl

/-- What the readers of a connection have queued or handed on. -/
structure Hears (libraries : FeedLibraries) (lines : List (List UInt8)) (s : Subscription) :
    Prop where
  bounded : s.queue.length ≤ referenceQueue
  consecutive : s.heard ++ s.queue <+: (lines.drop s.since).filterMap (told libraries.loads)
  complete : s.served = true → s.reading = true → s.text = [] → s.inFlight = [] →
    s.heard ++ s.queue = (lines.drop s.since).filterMap (told libraries.loads)
  blocks : ∀ blocks, ShowBlocks libraries lines blocks →
    s.heard ++ s.queue <+: (blocks.drop s.since).map justified

theorem Follows.hears {lines : List (List UInt8)} {s : Subscription}
    (follows : Follows libraries lines s) : Hears libraries lines s := by
  obtain ⟨front, back, split, heard, arriving, all⟩ := follows.relayed
  have consecutive : s.heard ++ s.queue <+:
      (lines.drop s.since).filterMap (told libraries.loads) := by
    rw [heard, ← filterMap_decode_rows, split, List.filterMap_append]
    exact List.prefix_append _ _
  refine ⟨follows.bounded, consecutive, ?_, ?_⟩
  · intro served reading noText noFlight
    have nothing := all reading served
    rw [noText, noFlight] at nothing
    cases back with
    | nil =>
        rw [heard, ← filterMap_decode_rows, split, List.append_nil]
    | cons row later =>
        rw [textOfRows, textOf_cons] at nothing
        exact absurd nothing.symm (List.append_ne_nil_of_right_ne_nil _ (List.cons_ne_nil _ _))
  · intro blocks shown
    have later : ShowBlocks libraries (lines.drop s.since) (blocks.drop s.since) :=
      List.forall₂_drop s.since shown
    rw [← filterMap_told later]
    exact consecutive

/--
In every interleaving of the feed's tail, its acceptor, its broadcasts and the
readers, there are never more clients than allowed, and what a reader has queued
or handed on are the first lines that the feed printed since it accepted the
connection: none is missing, torn or repeated, and all of them are there once
everything has arrived at a client that is still served.  If the lines show the
blocks of the node, they are its consecutive blocks, and the legs do with them
what they would do with what the node wrote.
-/
theorem subscribers_hear_consecutive_blocks (documented : libraries.Documented)
    {maxClients : Nat} {actions : List FeedAction} {feed : FeedServer}
    (reached : Runs.run (FeedServer.step libraries maxClients) .start actions = some feed) :
    feed.clients ≤ maxClients ∧ (∀ s ∈ feed.subscriptions, Hears libraries feed.lines s) ∧
    ∀ block, Written block → ∀ parseReferenceTimeMs now,
      (∀ assembly : Assembly,
        assembly.trackReference parseReferenceTimeMs (justified block) now =
          assembly.trackReference parseReferenceTimeMs block now) ∧
      ∀ assembly : DecodedAssembly,
        assembly.trackReference parseReferenceTimeMs (justified block) now =
          assembly.trackReference parseReferenceTimeMs block now := by
  have serves : Serves libraries maxClients feed :=
    Runs.run_preserves (Serves libraries maxClients)
      (fun _ _ _ serves stepped => serves.step documented stepped) .start reached
  refine ⟨serves.few, fun s member => (serves.follows s member).hears, ?_⟩
  intro block written parseReferenceTimeMs now
  exact ⟨fun assembly => trackReference_justified written parseReferenceTimeMs assembly now,
    fun assembly => decoded_trackReference_justified written parseReferenceTimeMs assembly now⟩

def asciiBytes (text : String) : List UInt8 :=
  text.toList.map fun symbol => UInt8.ofNat symbol.toNat

def feedBlock : ReferenceLine where
  r := 7
  t := "2026-08-10"
  b := []

/-- `{"abci_block":{"round":7,"time":"2026-08-10","signed_action_bundles":[]}}` -/
def feedRaw : List UInt8 :=
  asciiBytes (braced ("\"abci_block\":" ++
    braced "\"round\":7,\"time\":\"2026-08-10\",\"signed_action_bundles\":[]"))

def feedValue : Json :=
  .object [("abci_block", .object
    [("round", .number (.posInt 7)), ("time", .string "2026-08-10"),
      ("signed_action_bundles", .array [])])]

/-- `{"r":7,"t":"2026-08-10","b":[]}` -/
def feedText : List UInt8 := asciiBytes (braced "\"r\":7,\"t\":\"2026-08-10\",\"b\":[]")

/-- The libraries on the sample. -/
def feedLibraries : FeedLibraries where
  loads raw := if raw = feedRaw then some feedValue else none
  dumps _ := feedText
  fromStr text := if text = feedText then some (justified feedBlock) else none

theorem feedValue_shows : Shows feedValue feedBlock :=
  ⟨by decide, _, _, rfl, rfl, rfl, rfl, .nil⟩

theorem loads_feedRaw : feedLibraries.loads feedRaw = some feedValue := by
  unfold feedLibraries
  dsimp only
  rw [if_pos rfl]

theorem ascii_feedText : ∀ byte ∈ feedText, 32 ≤ byte.toNat ∧ byte.toNat < 128 := by
  decide +kernel

theorem feedLibraries_documented : feedLibraries.Documented := by
  intro raw row compacted
  have isBlock : row = FeedRow.ofLine (justified feedBlock) := by
    unfold compact feedLibraries at compacted
    dsimp only at compacted
    split at compacted
    · cases compacted
    next value loaded =>
      split at loaded
      · cases loaded
        exact (Except.ok.inj ((compactValue_shows feedValue_shows).symm.trans compacted)).symm
      · cases loaded
  subst isBlock
  refine ⟨fun byte member => ?_, ?_, fun part _ other => ?_⟩
  · unfold feedLibraries at member
    dsimp only at member
    exact ascii_feedText byte member
  · rw [decode_ofLine (by decide) (by decide)]
    unfold feedLibraries
    dsimp only
    rw [if_pos rfl]
  · unfold feedLibraries at other ⊢
    dsimp only at other ⊢
    rw [if_neg other]

/-- Two clients are accepted, and a third one between two lines; the socket of the second one fails
in the second line. -/
def feedActions : List FeedAction :=
  [.accept, .accept, .read (feedRaw ++ [10] ++ feedRaw ++ [10]), .line fun _ => none, .accept,
    .line fun index => if index = 1 then some 5 else none,
    .reader 0 (.arrive (2 * feedText.length + 2)), .reader 0 .next, .reader 0 .hear,
    .reader 0 .next, .reader 1 (.arrive (feedText.length + 6)), .reader 1 .next,
    .reader 1 .finish, .reader 2 (.arrive 3)]

theorem subscribers_hear_consecutive_blocks_dropped :
    ∃ feed, Runs.run (FeedServer.step feedLibraries 3) .start feedActions = some feed ∧
      feed.subscriptions.map (fun s => (s.since, s.served, s.heard ++ s.queue)) =
        [(0, true, [justified feedBlock, justified feedBlock]),
          (0, false, [justified feedBlock]), (1, true, [])] ∧
      ∀ s ∈ feed.subscriptions, s.heard ++ s.queue <+:
        ([feedBlock, feedBlock].drop s.since).map justified := by
  have outcome : (Runs.run (FeedServer.step feedLibraries 3) .start feedActions).map
      (fun feed => (feed.lines,
        feed.subscriptions.map fun s => (s.since, s.served, s.heard ++ s.queue))) =
      some ([feedRaw, feedRaw], [(0, true, [justified feedBlock, justified feedBlock]),
        (0, false, [justified feedBlock]), (1, true, [])]) := by
    decide +kernel
  obtain ⟨feed, reached, same⟩ := Option.map_eq_some_iff.mp outcome
  obtain ⟨lines, subscriptions⟩ := Prod.mk.inj same
  have hears := subscribers_hear_consecutive_blocks feedLibraries_documented reached
  have shown : ShowBlocks feedLibraries feed.lines [feedBlock, feedBlock] := by
    rw [lines]
    exact .cons ⟨_, loads_feedRaw, feedValue_shows⟩ (.cons ⟨_, loads_feedRaw, feedValue_shows⟩ .nil)
  exact ⟨feed, reached, subscriptions, fun s member => (hears.2.1 s member).blocks _ shown⟩

end MarketBenchmark.ReferenceFeed
