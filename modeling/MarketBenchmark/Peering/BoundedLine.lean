import MarketBenchmark.Foundation.Lines
import MarketBenchmark.Foundation.Runs

/-!
# Bounded lines under cancellation

`read_bounded_line` moves what a buffered reader holds into the caller's line,
up to a newline.  Its only suspension is inside `fill_buf`, before any byte has
moved, so a caller that drops the future there and calls again goes on with the
same line.  The buffered reader itself is a parameter with its documented
behaviour; the socket hands over any pieces of the stream.
-/

namespace MarketBenchmark.Peering

open Foundation.Lines
open Foundation.Runs

/-- `MAX_DECODED_LINE` -/
def maxDecodedLine : Nat := 64 * 1024 * 1024

def newline : UInt8 := 10

/-- A buffered reader as it is documented: a completed `fill_buf` leaves a buffer that is not
empty as it is, and otherwise holds what the socket handed over; `consume` removes bytes
from its front; a `fill_buf` that is dropped before it completes reads nothing. -/
structure BufReader (Reader : Type*) where
  buffer : Reader → List UInt8
  fillBuf : Reader → List UInt8 → Reader
  consume : Reader → Nat → Reader
  dropped : Reader → Reader
  buffer_fillBuf : ∀ reader received, buffer (fillBuf reader received) =
    if buffer reader = [] then received else buffer reader
  buffer_consume : ∀ reader amount, amount ≤ (buffer reader).length →
    buffer (consume reader amount) = (buffer reader).drop amount
  buffer_dropped : ∀ reader, buffer (dropped reader) = buffer reader

/-! ## The loop of `read_bounded_line` -/

/-- How one turn of the loop ends. -/
inductive LineOutcome where
  /-- The loop goes on. -/
  | goesOn
  /-- `Ok(true)` -/
  | complete
  /-- `Ok(false)` -/
  | closed
  /-- The error of an oversize line. -/
  | desync
  deriving DecidableEq, Repr

structure LineTurn where
  consumed : Nat
  line : List UInt8
  outcome : LineOutcome
  deriving DecidableEq, Repr

/-- One turn of the loop, with what `fill_buf` made available. -/
def lineTurn (line available : List UInt8) : LineTurn :=
  if available = [] then { consumed := 0, line := line, outcome := .closed }
  else
    match available.findIdx? (· == newline) with
    | some pos =>
        { consumed := pos + 1
          line := line ++ available.take pos
          outcome := .complete }
    | none =>
        { consumed := available.length
          line := line ++ available
          outcome :=
            if maxDecodedLine < (line ++ available).length then .desync else .goesOn }

/-- What one turn does with the bytes before it. -/
theorem lineTurn_cases {line : List UInt8} (unfinished : newline ∉ line)
    (available : List UInt8) :
    (available = [] ∧ lineTurn line available = ⟨0, line, .closed⟩) ∨
    (∃ front back, newline ∉ line ++ front ∧ available = front ++ newline :: back ∧
      lineTurn line available = ⟨front.length + 1, line ++ front, .complete⟩) ∨
    (available ≠ [] ∧ newline ∉ line ++ available ∧
      lineTurn line available = ⟨available.length, line ++ available,
        if maxDecodedLine < (line ++ available).length then .desync else .goesOn⟩) := by
  unfold lineTurn
  by_cases empty : available = []
  · exact Or.inl ⟨empty, if_pos empty⟩
  · rw [if_neg empty]
    cases found : available.findIdx? (· == newline) with
    | none =>
        refine Or.inr (Or.inr ⟨empty, fun member => ?_, rfl⟩)
        rcases List.mem_append.mp member with inLine | inAvailable
        · exact unfinished inLine
        · have none := List.findIdx?_eq_none_iff.mp found newline inAvailable
          exact absurd none (by decide)
    | some pos =>
        obtain ⟨inside, isNewline, before⟩ := List.findIdx?_eq_some_iff_getElem.mp found
        refine Or.inr (Or.inl ⟨available.take pos, available.drop (pos + 1), ?_, ?_, ?_⟩)
        · intro member
          rcases List.mem_append.mp member with inLine | inFront
          · exact unfinished inLine
          · obtain ⟨index, within, same⟩ := List.mem_iff_getElem.mp inFront
            rw [List.length_take] at within
            rw [List.getElem_take] at same
            have other := before index (by omega)
            rw [same] at other
            exact other rfl
        · have same : available[pos] = newline := beq_iff_eq.mp isNewline
          rw [← same, ← List.drop_eq_getElem_cons inside, List.take_append_drop]
        · rw [List.length_take_of_le inside.le]

/-! ## Calls, drops and arrivals -/

inductive LinePhase where
  /-- The caller has no future of the reader. -/
  | idle
  /-- A future of the reader is alive, suspended in `fill_buf`. -/
  | reading
  | closed
  | failed
  deriving DecidableEq, Repr

/-- The buffered reader and the caller's line; what the socket has not handed over yet, and the
lines that were complete. -/
structure LineSession (Reader : Type*) where
  reader : Reader
  line : List UInt8
  arriving : List UInt8
  lines : List (List UInt8)
  phase : LinePhase

inductive LineEvent where
  /-- The caller calls `read_bounded_line`. -/
  | call
  /-- The caller drops the future while it waits. -/
  | drop
  /-- `fill_buf` completes; if it asked, the socket hands over so many bytes. -/
  | ready (size : Nat)

namespace LineSession

variable {Reader : Type*} (api : BufReader Reader)

def start (reader : Reader) (stream : List UInt8) : LineSession Reader where
  reader := reader
  line := []
  arriving := stream
  lines := []
  phase := .idle

/-- The caller keeps a complete line and clears the buffer. -/
def finishTurn (session : LineSession Reader) (turn : LineTurn) : LineSession Reader :=
  match turn.outcome with
  | .goesOn =>
      { session with
        reader := api.consume session.reader turn.consumed
        line := turn.line }
  | .complete =>
      { session with
        reader := api.consume session.reader turn.consumed
        line := []
        lines := session.lines ++ [turn.line]
        phase := .idle }
  | .closed => { session with phase := .closed }
  | .desync =>
      { session with
        reader := api.consume session.reader turn.consumed
        line := turn.line
        phase := .failed }

/-- What the socket hands over: nothing unless the buffer is empty. -/
def handOver (session : LineSession Reader) (size : Nat) : List UInt8 :=
  if api.buffer session.reader = [] then session.arriving.take size else []

/-- The state once `fill_buf` has completed. -/
def filled (session : LineSession Reader) (size : Nat) : LineSession Reader :=
  { session with
    reader := api.fillBuf session.reader (session.handOver api size)
    arriving := session.arriving.drop (session.handOver api size).length }

/-- `fill_buf` waits for a byte or for the end of the stream. -/
def Waits (session : LineSession Reader) (size : Nat) : Prop :=
  api.buffer session.reader = [] ∧ session.arriving ≠ [] ∧ size = 0

instance (session : LineSession Reader) (size : Nat) : Decidable (session.Waits api size) :=
  inferInstanceAs (Decidable (_ ∧ _))

def step (session : LineSession Reader) : LineEvent → Option (LineSession Reader)
  | .call => if session.phase = .idle then some { session with phase := .reading } else none
  | .drop =>
      if session.phase = .reading then
        some { session with reader := api.dropped session.reader, phase := .idle }
      else none
  | .ready size =>
      if session.phase = .reading ∧ ¬session.Waits api size then
        let ready := session.filled api size
        some (ready.finishTurn api (lineTurn session.line (api.buffer ready.reader)))
      else none

section Cases

variable {api} {session after : LineSession Reader}

theorem step_call (stepped : session.step api .call = some after) :
    session.phase = .idle ∧ after = { session with phase := .reading } := by
  change (if session.phase = .idle then _ else none) = some after at stepped
  split at stepped
  · next idle => exact ⟨idle, (Option.some.inj stepped).symm⟩
  · cases stepped

theorem step_drop (stepped : session.step api .drop = some after) :
    session.phase = .reading ∧
      after = { session with reader := api.dropped session.reader, phase := .idle } := by
  change (if session.phase = .reading then _ else none) = some after at stepped
  split at stepped
  · next reading => exact ⟨reading, (Option.some.inj stepped).symm⟩
  · cases stepped

theorem step_ready {size : Nat} (stepped : session.step api (.ready size) = some after) :
    session.phase = .reading ∧ ¬session.Waits api size ∧
      after = (session.filled api size).finishTurn api
        (lineTurn session.line (api.buffer (session.filled api size).reader)) := by
  change (if session.phase = .reading ∧ ¬session.Waits api size then _ else none) =
    some after at stepped
  split at stepped
  · next both => exact ⟨both.1, both.2, (Option.some.inj stepped).symm⟩
  · cases stepped

end Cases

/-! ## Every byte is in its place -/

/-- What the socket handed over and what it still holds are the lines, the unfinished line, the
buffer and the rest. -/
structure InPlace (stream : List UInt8) (session : LineSession Reader) : Prop where
  conserved : (session.lines.map (· ++ [newline])).flatten ++
    (session.line ++ (api.buffer session.reader ++ session.arriving)) = stream
  whole : ∀ line ∈ session.lines, newline ∉ line
  unfinished : newline ∉ session.line
  sound : session.phase ≠ .failed
  ended : session.phase = .closed → api.buffer session.reader = [] ∧ session.arriving = []

variable {api} {stream : List UInt8} {session after : LineSession Reader}

/-- Completing `fill_buf` moves bytes from the socket to the buffer, and loses none. -/
theorem buffer_filled (api : BufReader Reader) (session : LineSession Reader) (size : Nat) :
    api.buffer (session.filled api size).reader ++ (session.filled api size).arriving =
      api.buffer session.reader ++ session.arriving := by
  unfold filled handOver
  dsimp only
  rw [api.buffer_fillBuf]
  by_cases empty : api.buffer session.reader = []
  · rw [if_pos empty, if_pos empty, empty, List.nil_append]
    exact List.prefix_iff_eq_append.mp (List.take_prefix size session.arriving)
  · rw [if_neg empty, if_neg empty]
    rfl

/-- An empty completion of `fill_buf` is the end of the stream. -/
theorem ended_of_filled {size : Nat} (asked : ¬session.Waits api size)
    (empty : api.buffer (session.filled api size).reader = []) :
    (session.filled api size).arriving = [] := by
  have moved := buffer_filled api session size
  rw [empty, List.nil_append] at moved
  unfold filled handOver at empty
  dsimp only at empty
  rw [api.buffer_fillBuf] at empty
  split at empty
  · next none =>
      rw [moved, none, List.nil_append]
      by_contra some
      have positive : size ≠ 0 := fun zero => asked ⟨none, some, zero⟩
      exact (List.take_eq_nil_iff.mp empty).elim positive some
  · next some => exact absurd empty some

theorem InPlace.start {reader : Reader} (fresh : api.buffer reader = []) (stream : List UInt8) :
    InPlace api stream (start reader stream) where
  conserved := by
    change [] ++ ([] ++ (api.buffer reader ++ stream)) = stream
    rw [fresh]
    rfl
  whole _ member := absurd member List.not_mem_nil
  unfinished := List.not_mem_nil
  sound := LinePhase.noConfusion
  ended := LinePhase.noConfusion

/-- In a stream of short lines the unfinished line is short. -/
theorem InPlace.line_short (inPlace : InPlace api stream session)
    (short : ∀ line ∈ stream.splitOn newline, line.length ≤ maxDecodedLine)
    {front back : List UInt8} (notInFront : newline ∉ session.line ++ front)
    (split : api.buffer session.reader ++ session.arriving = front ++ back) :
    (session.line ++ front).length ≤ maxDecodedLine := by
  have conserved := inPlace.conserved
  rw [split, ← List.append_assoc session.line] at conserved
  have ofRest : ∀ piece ∈ (session.line ++ front ++ back).splitOn newline,
      piece.length ≤ maxDecodedLine := by
    intro piece member
    refine short piece ?_
    rw [← conserved, splitOn_lines inPlace.whole]
    exact List.mem_append_right _ member
  exact length_le_of_splitOn notInFront ofRest

/-- One completed turn keeps every byte in its place. -/
theorem InPlace.ready (inPlace : InPlace api stream session)
    (short : ∀ line ∈ stream.splitOn newline, line.length ≤ maxDecodedLine) {size : Nat}
    (stepped : session.step api (.ready size) = some after) : InPlace api stream after := by
  obtain ⟨reading, asked, rfl⟩ := step_ready stepped
  have moved := buffer_filled api session size
  have conserved := inPlace.conserved
  rw [← moved] at conserved
  rcases lineTurn_cases inPlace.unfinished (api.buffer (session.filled api size).reader) with
    ⟨empty, turned⟩ | ⟨front, back, notInFront, found, turned⟩ | ⟨_, notInLine, turned⟩
  · rw [turned]
    exact ⟨conserved, inPlace.whole, inPlace.unfinished, LinePhase.noConfusion,
      fun _ => ⟨empty, ended_of_filled asked empty⟩⟩
  · have consumed : api.buffer (api.consume (session.filled api size).reader
        (front.length + 1)) = back := by
      rw [api.buffer_consume _ _ (by rw [found, List.length_append, List.length_cons]; omega),
        found, List.drop_append, List.drop_eq_nil_of_le (Nat.le_succ _), List.nil_append,
        Nat.add_sub_cancel_left]
      rfl
    rw [turned]
    refine ⟨?_, ?_, List.not_mem_nil, LinePhase.noConfusion, LinePhase.noConfusion⟩
    · change ((session.lines ++ [session.line ++ front]).map (· ++ [newline])).flatten ++
        ([] ++ (api.buffer (api.consume (session.filled api size).reader (front.length + 1)) ++
          (session.filled api size).arriving)) = stream
      rw [consumed, ← conserved, found, List.map_append, List.flatten_append]
      simp only [List.map_cons, List.map_nil, List.flatten_cons, List.flatten_nil,
        List.append_assoc, List.append_nil, List.nil_append, List.cons_append]
    · intro line member
      rcases List.mem_append.mp member with old | new
      · exact inPlace.whole line old
      · rw [List.mem_singleton.mp new]
        exact notInFront
  · have fits := inPlace.line_short short notInLine moved.symm
    have consumed : api.buffer (api.consume (session.filled api size).reader
        (api.buffer (session.filled api size).reader).length) = [] := by
      rw [api.buffer_consume _ _ (Nat.le_refl _), List.drop_length]
    rw [turned, if_neg (Nat.not_lt.mpr fits)]
    refine ⟨?_, inPlace.whole, notInLine, ?_, ?_⟩
    · change (session.lines.map (· ++ [newline])).flatten ++
        (session.line ++ api.buffer (session.filled api size).reader ++
          (api.buffer (api.consume (session.filled api size).reader
            (api.buffer (session.filled api size).reader).length) ++
              (session.filled api size).arriving)) = stream
      rw [consumed, List.nil_append, List.append_assoc]
      exact conserved
    · change session.phase ≠ .failed
      exact inPlace.sound
    · change session.phase = .closed → _
      rw [reading]
      exact LinePhase.noConfusion

/-- A dropped future leaves every byte where it was. -/
theorem InPlace.step (inPlace : InPlace api stream session)
    (short : ∀ line ∈ stream.splitOn newline, line.length ≤ maxDecodedLine)
    {event : LineEvent} (stepped : session.step api event = some after) :
    InPlace api stream after := by
  cases event with
  | call =>
      obtain ⟨_, rfl⟩ := step_call stepped
      exact ⟨inPlace.conserved, inPlace.whole, inPlace.unfinished, LinePhase.noConfusion,
        LinePhase.noConfusion⟩
  | drop =>
      obtain ⟨_, rfl⟩ := step_drop stepped
      refine ⟨?_, inPlace.whole, inPlace.unfinished, LinePhase.noConfusion,
        LinePhase.noConfusion⟩
      dsimp only
      rw [api.buffer_dropped]
      exact inPlace.conserved
  | ready size => exact inPlace.ready short stepped

/-! ## Progress -/

/-- The bytes that no call has consumed. -/
def unread (api : BufReader Reader) (session : LineSession Reader) : Nat :=
  (api.buffer session.reader ++ session.arriving).length

/-- A completed turn ends the stream or consumes something. -/
theorem unread_ready (inPlace : InPlace api stream session)
    (short : ∀ line ∈ stream.splitOn newline, line.length ≤ maxDecodedLine) {size : Nat}
    (stepped : session.step api (.ready size) = some after) :
    after.phase = .closed ∨ after.unread api < session.unread api := by
  obtain ⟨reading, asked, rfl⟩ := step_ready stepped
  have moved := buffer_filled api session size
  unfold unread
  rw [← moved]
  rcases lineTurn_cases inPlace.unfinished (api.buffer (session.filled api size).reader) with
    ⟨empty, turned⟩ | ⟨front, back, _, found, turned⟩ | ⟨some, notInLine, turned⟩
  · rw [turned]
    exact Or.inl rfl
  · have within : front.length + 1 ≤ (api.buffer (session.filled api size).reader).length := by
      rw [found, List.length_append, List.length_cons]
      omega
    rw [turned]
    refine Or.inr ?_
    change (api.buffer (api.consume (session.filled api size).reader (front.length + 1)) ++
      (session.filled api size).arriving).length < _
    rw [api.buffer_consume _ _ within, List.length_append, List.length_append, List.length_drop]
    omega
  · have fits := inPlace.line_short short notInLine moved.symm
    have positive := List.length_pos_iff.mpr some
    rw [turned, if_neg (Nat.not_lt.mpr fits)]
    refine Or.inr ?_
    change (api.buffer (api.consume (session.filled api size).reader
      (api.buffer (session.filled api size).reader).length) ++
        (session.filled api size).arriving).length < _
    rw [api.buffer_consume _ _ (Nat.le_refl _), List.length_append, List.length_append,
      List.length_drop]
    omega

/-- Whatever happened so far, letting every call complete reads the stream to its end. -/
theorem exists_closing_run (inPlace : InPlace api stream session)
    (short : ∀ line ∈ stream.splitOn newline, line.length ≤ maxDecodedLine) :
    ∃ events final, run (step api) session events = some final ∧ final.phase = .closed := by
  generalize count : session.unread api = size
  induction size using Nat.strong_induction_on generalizing session with
  | h size ih =>
      -- one call, or the one that is under way, completed with all that the socket has
      have fromReading : ∀ reading : LineSession Reader, InPlace api stream reading →
          reading.unread api = size → reading.phase = .reading →
          ∃ events final, run (step api) reading events = some final ∧
            final.phase = .closed := by
        intro reading inPlaceReading same isReading
        have asked : ¬reading.Waits api (reading.arriving.length) :=
          fun waits => waits.2.1 (List.length_eq_zero_iff.mp waits.2.2)
        obtain ⟨after, stepped⟩ : ∃ after,
            reading.step api (.ready reading.arriving.length) = some after :=
          ⟨_, if_pos ⟨isReading, asked⟩⟩
        rcases unread_ready inPlaceReading short stepped with closed | less
        · exact ⟨[.ready reading.arriving.length], after,
            (run_singleton reading _).trans stepped, closed⟩
        · obtain ⟨events, final, executed, closed⟩ :=
            ih (after.unread api) (same ▸ less) (inPlaceReading.step short stepped) rfl
          refine ⟨.ready reading.arriving.length :: events, final, ?_, closed⟩
          rw [run_cons, stepped]
          exact executed
      cases isPhase : session.phase with
      | idle =>
          obtain ⟨called, stepped⟩ : ∃ called, session.step api .call = some called :=
            ⟨_, if_pos isPhase⟩
          obtain ⟨_, same⟩ := step_call stepped
          obtain ⟨events, final, executed, closed⟩ := fromReading called
            (inPlace.step short stepped) (by rw [same]; exact count) (by rw [same])
          refine ⟨.call :: events, final, ?_, closed⟩
          rw [run_cons, stepped]
          exact executed
      | reading => exact fromReading session inPlace count isPhase
      | closed => exact ⟨[], session, rfl, isPhase⟩
      | failed => exact absurd isPhase inPlace.sound

/--
However the socket hands the stream over and wherever the caller drops the
future and calls again, the complete lines are the first pieces of the stream,
the bytes after them are in their place, and the end of the stream, which is
always reached, leaves exactly its split into lines.
-/
theorem bounded_lines_split (api : BufReader Reader) {reader : Reader}
    (fresh : api.buffer reader = []) {stream : List UInt8}
    (short : ∀ line ∈ stream.splitOn newline, line.length ≤ maxDecodedLine)
    {events : List LineEvent} {session : LineSession Reader}
    (executed : run (step api) (start reader stream) events = some session) :
    session.phase ≠ .failed ∧
    (∀ line ∈ session.lines, newline ∉ line) ∧
    (session.lines.map (· ++ [newline])).flatten ++
      (session.line ++ (api.buffer session.reader ++ session.arriving)) = stream ∧
    session.lines <+: stream.splitOn newline ∧
    (session.phase = .closed → stream.splitOn newline = session.lines ++ [session.line]) ∧
    ∃ more final, run (step api) session more = some final ∧ final.phase = .closed := by
  have inPlace : InPlace api stream session :=
    run_preserves (InPlace api stream) (fun _ _ _ held stepped => held.step short stepped)
      (InPlace.start fresh stream) executed
  have pieces := splitOn_lines inPlace.whole
    (session.line ++ (api.buffer session.reader ++ session.arriving))
  rw [inPlace.conserved] at pieces
  refine ⟨inPlace.sound, inPlace.whole, inPlace.conserved, ⟨_, pieces.symm⟩, fun closed => ?_,
    exists_closing_run inPlace short⟩
  obtain ⟨empty, exhausted⟩ := inPlace.ended closed
  rw [pieces, empty, exhausted, List.append_nil, List.append_nil,
    List.splitOn_eq_singleton inPlace.unfinished]

/-- A buffered reader whose state is its buffer. -/
def plainReader : BufReader (List UInt8) where
  buffer := id
  fillBuf reader received := if reader = [] then received else reader
  consume reader amount := reader.drop amount
  dropped := id
  buffer_fillBuf _ _ := rfl
  buffer_consume _ _ _ := rfl
  buffer_dropped _ := rfl

/-- `a`, a newline and `bc` in three pieces, with a drop inside and one between the lines. -/
theorem bounded_lines_split_dropped :
    ∃ session : LineSession (List UInt8),
      run (step plainReader) (start [] [97, 10, 98, 99])
        [.call, .ready 1, .drop, .call, .ready 2, .call, .drop, .call, .ready 9, .ready 1,
          .ready 0] = some session ∧
      session.lines = [[97]] ∧ session.line = [98, 99] ∧
      [97, 10, 98, 99].splitOn newline = session.lines ++ [session.line] := by
  obtain ⟨session, executed, closed, lines, line⟩ : ∃ session : LineSession (List UInt8),
      run (step plainReader) (start [] [97, 10, 98, 99])
        [.call, .ready 1, .drop, .call, .ready 2, .call, .drop, .call, .ready 9, .ready 1,
          .ready 0] = some session ∧
      session.phase = .closed ∧ session.lines = [[97]] ∧ session.line = [98, 99] :=
    ⟨_, rfl, rfl, rfl, rfl⟩
  have split := bounded_lines_split plainReader rfl (by decide) executed
  exact ⟨session, executed, lines, line, split.2.2.2.2.1 closed⟩

end LineSession

end MarketBenchmark.Peering
