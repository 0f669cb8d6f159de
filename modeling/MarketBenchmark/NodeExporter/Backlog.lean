import MarketBenchmark.Foundation.Runs

/-!
# The exporter's backlog

The node exporter's tailers push events into a bounded backlog, and one flusher
thread takes the whole backlog, posts it, and pushes it back when the post
failed.  Each push and each take holds the lock, so a run is any interleaving
of these steps.

The code forgets when an event was produced; the model numbers the events in
the order of their first push, and keeps what became of each of them.
-/

namespace MarketBenchmark.NodeExporter

open Foundation.Runs

/-- `MAX_PENDING_EVENTS` -/
def maxPendingEvents : Nat := 50000

/-- An event with its number in the order of production. -/
structure Produced (Event : Type*) where
  serial : Nat
  event : Event

structure AxiomSink (Item : Type*) where
  pending : List Item := []
  dropped : Nat := 0

namespace AxiomSink

variable {Item : Type*}

/-- `push`, under the lock. -/
def push (sink : AxiomSink Item) (events : List Item) : AxiomSink Item :=
  let pending := sink.pending ++ events
  if maxPendingEvents < pending.length then
    let overflow := pending.length - maxPendingEvents
    { pending := pending.drop overflow, dropped := sink.dropped + overflow }
  else { sink with pending := pending }

/-- How many events a push cuts off. -/
def overflow (sink : AxiomSink Item) (events : List Item) : Nat :=
  (sink.pending ++ events).length - maxPendingEvents

/-- The events that a push cuts off. -/
def cutOff (sink : AxiomSink Item) (events : List Item) : List Item :=
  (sink.pending ++ events).take (sink.overflow events)

theorem push_eq (sink : AxiomSink Item) (events : List Item) :
    sink.push events =
      { pending := (sink.pending ++ events).drop (sink.overflow events)
        dropped := sink.dropped + sink.overflow events } := by
  unfold push overflow
  dsimp only
  split
  · rfl
  · next fits =>
      rw [Nat.sub_eq_zero_of_le (Nat.le_of_not_lt fits)]
      rfl

theorem push_pending (sink : AxiomSink Item) (events : List Item) :
    (sink.push events).pending = (sink.pending ++ events).drop (sink.overflow events) := by
  rw [push_eq]

theorem push_dropped (sink : AxiomSink Item) (events : List Item) :
    (sink.push events).dropped = sink.dropped + sink.overflow events := by
  rw [push_eq]

theorem length_push_le (sink : AxiomSink Item) (events : List Item) :
    (sink.push events).pending.length ≤ maxPendingEvents := by
  rw [push_pending, List.length_drop]
  unfold overflow
  omega

theorem length_cutOff (sink : AxiomSink Item) (events : List Item) :
    (sink.cutOff events).length = sink.overflow events := by
  unfold cutOff
  refine List.length_take_of_le ?_
  unfold overflow
  omega

theorem cutOff_append_push (sink : AxiomSink Item) (events : List Item) :
    sink.cutOff events ++ (sink.push events).pending = sink.pending ++ events := by
  unfold cutOff
  rw [push_pending, List.take_append_drop]

/-- Without an overflow nothing is cut off. -/
theorem cutOff_of_fits {sink : AxiomSink Item} {events : List Item}
    (fits : sink.overflow events = 0) : sink.cutOff events = [] := by
  unfold cutOff
  rw [fits, List.take_zero]

theorem push_pending_of_fits {sink : AxiomSink Item} {events : List Item}
    (fits : sink.overflow events = 0) : (sink.push events).pending = sink.pending ++ events := by
  rw [push_pending, fits, List.drop_zero]

/-- A push of as many events as there is room for cuts off everything that waited. -/
theorem cutOff_of_full {sink : AxiomSink Item} {events : List Item}
    (full : events.length = maxPendingEvents) : sink.cutOff events = sink.pending := by
  unfold cutOff overflow
  rw [List.length_append, full, Nat.add_sub_cancel, List.take_left]

end AxiomSink

/-- The sink, and the batch that the flusher holds between a take and its outcome; what was
produced, delivered and discarded so far. -/
structure Exporter (Event : Type*) where
  sink : AxiomSink (Produced Event) := {}
  batch : List (Produced Event) := []
  produced : List (Produced Event) := []
  delivered : List (Produced Event) := []
  discarded : List (Produced Event) := []

inductive Action (Event : Type*) where
  /-- A tailer pushes events. -/
  | push (events : List Event)
  /-- The flusher takes the backlog; it goes back to sleep when there is none. -/
  | take
  /-- The post of the batch succeeded. -/
  | posted
  /-- The post failed, and the flusher pushes the batch back. -/
  | failed

namespace Exporter

variable {Event : Type*}

/-- New events with their numbers. -/
def tag (state : Exporter Event) (events : List Event) : List (Produced Event) :=
  events.mapIdx fun index event => { serial := state.produced.length + index, event := event }

/-- The items that an action pushes. -/
def incoming (state : Exporter Event) : Action Event → List (Produced Event)
  | .push events => state.tag events
  | .failed => state.batch
  | .take | .posted => []

def step (state : Exporter Event) : Action Event → Option (Exporter Event)
  | .push events =>
      some
        { state with
          sink := state.sink.push (state.tag events)
          produced := state.produced ++ state.tag events
          discarded := state.discarded ++ state.sink.cutOff (state.tag events) }
  | .take =>
      if state.batch = [] then
        some { state with sink := { state.sink with pending := [] }, batch := state.sink.pending }
      else none
  | .posted =>
      if state.batch = [] then none
      else some { state with batch := [], delivered := state.delivered ++ state.batch }
  | .failed =>
      if state.batch = [] then none
      else
        some
          { state with
            sink := state.sink.push state.batch
            batch := []
            discarded := state.discarded ++ state.sink.cutOff state.batch }

section Cases

variable {state after : Exporter Event}

theorem step_take (stepped : state.step .take = some after) :
    state.batch = [] ∧ after =
      { state with sink := { state.sink with pending := [] }, batch := state.sink.pending } := by
  change (if state.batch = [] then _ else none) = some after at stepped
  split at stepped
  · next idle => exact ⟨idle, (Option.some.inj stepped).symm⟩
  · cases stepped

theorem step_posted (stepped : state.step .posted = some after) :
    state.batch ≠ [] ∧ after =
      { state with batch := [], delivered := state.delivered ++ state.batch } := by
  change (if state.batch = [] then none else _) = some after at stepped
  split at stepped
  · cases stepped
  · next busy => exact ⟨busy, (Option.some.inj stepped).symm⟩

theorem step_failed (stepped : state.step .failed = some after) :
    state.batch ≠ [] ∧ after =
      { state with
        sink := state.sink.push state.batch
        batch := []
        discarded := state.discarded ++ state.sink.cutOff state.batch } := by
  change (if state.batch = [] then none else _) = some after at stepped
  split at stepped
  · cases stepped
  · next busy => exact ⟨busy, (Option.some.inj stepped).symm⟩

end Cases

/-- What is neither delivered nor discarded. -/
def undelivered (state : Exporter Event) : List (Produced Event) :=
  state.batch ++ state.sink.pending

/-- What was discarded is older than everything that is still undelivered. -/
def NewestKept (state : Exporter Event) : Prop :=
  ∀ lost ∈ state.discarded, ∀ kept ∈ state.undelivered, lost.serial < kept.serial

/-! ## What became of every event -/

section Tag

variable {state : Exporter Event} {events : List Event}

theorem serials_tag (state : Exporter Event) (events : List Event) :
    (state.tag events).map Produced.serial =
      (List.range events.length).map (state.produced.length + ·) := by
  refine List.ext_getElem (by simp [tag]) fun index _ _ => ?_
  simp [tag]

theorem length_tag : (state.tag events).length = events.length := List.length_mapIdx

/-- New numbers are at least as large as there are old ones. -/
theorem le_serial_of_mem_tag {item : Produced Event} (member : item ∈ state.tag events) :
    state.produced.length ≤ item.serial := by
  have isSerial := List.mem_map_of_mem (f := Produced.serial) member
  rw [serials_tag] at isSerial
  obtain ⟨index, _, same⟩ := List.mem_map.mp isSerial
  omega

/-- The numbers of new events increase. -/
theorem increasing_tag (state : Exporter Event) (events : List Event) :
    (state.tag events).Pairwise fun earlier later => earlier.serial < later.serial := by
  have increasing : ((state.tag events).map Produced.serial).Pairwise (· < ·) := by
    rw [serials_tag]
    exact List.pairwise_lt_range.map _ fun _ _ less => Nat.add_lt_add_left less _
  exact List.pairwise_map.mp increasing

end Tag

/-- Every event produced is delivered, discarded or undelivered, and the discarded ones are
counted; what the flusher holds is older than what waits. -/
structure Tracked (state : Exporter Event) : Prop where
  numbered : state.produced.map Produced.serial = List.range state.produced.length
  accounted : state.produced.Perm (state.delivered ++ state.discarded ++ state.undelivered)
  counted : state.sink.dropped = state.discarded.length
  bounded : state.sink.pending.length ≤ maxPendingEvents
  batchBounded : state.batch.length ≤ maxPendingEvents
  batchOlder : ∀ taken ∈ state.batch, ∀ waiting ∈ state.sink.pending,
    taken.serial < waiting.serial

namespace Tracked

variable {state : Exporter Event}

theorem new : Tracked ({} : Exporter Event) where
  numbered := rfl
  accounted := List.Perm.refl _
  counted := rfl
  bounded := Nat.zero_le _
  batchBounded := Nat.zero_le _
  batchOlder _ member := absurd member List.not_mem_nil

theorem serial_lt (tracked : state.Tracked) {item : Produced Event}
    (member : item ∈ state.produced) : item.serial < state.produced.length := by
  have isSerial := List.mem_map_of_mem (f := Produced.serial) member
  rw [tracked.numbered] at isSerial
  exact List.mem_range.mp isSerial

theorem undelivered_lt (tracked : state.Tracked) {item : Produced Event}
    (member : item ∈ state.undelivered) : item.serial < state.produced.length :=
  tracked.serial_lt (tracked.accounted.mem_iff.mpr (List.mem_append_right _ member))

theorem discarded_lt (tracked : state.Tracked) {item : Produced Event}
    (member : item ∈ state.discarded) : item.serial < state.produced.length :=
  tracked.serial_lt (tracked.accounted.mem_iff.mpr
    (List.mem_append_left _ (List.mem_append_right _ member)))

/-- A push splits what waits and what comes into what it cuts off and what it keeps. -/
theorem perm_push (sink : AxiomSink (Produced Event))
    (delivered discarded held items : List (Produced Event)) :
    (delivered ++ discarded ++ (held ++ (sink.pending ++ items))).Perm
      (delivered ++ (discarded ++ sink.cutOff items) ++ (held ++ (sink.push items).pending)) := by
  have shifted : (held ++ (sink.cutOff items ++ (sink.push items).pending)).Perm
      (sink.cutOff items ++ (held ++ (sink.push items).pending)) :=
    List.perm_append_comm_assoc _ _ _
  rw [← sink.cutOff_append_push items]
  simp only [List.append_assoc]
  exact (shifted.append_left discarded).append_left delivered

theorem counted_push (tracked : state.Tracked) (items : List (Produced Event)) :
    (state.sink.push items).dropped =
      (state.discarded ++ state.sink.cutOff items).length := by
  rw [AxiomSink.push_dropped, List.length_append, AxiomSink.length_cutOff, ← tracked.counted]

/-- What a push keeps waited before or came with it. -/
theorem mem_push {sink : AxiomSink (Produced Event)} {items : List (Produced Event)}
    {item : Produced Event} (member : item ∈ (sink.push items).pending) :
    item ∈ sink.pending ∨ item ∈ items := by
  rw [AxiomSink.push_pending] at member
  exact List.mem_append.mp (List.mem_of_mem_drop member)

theorem step (tracked : state.Tracked) {action : Action Event} {after : Exporter Event}
    (stepped : state.step action = some after) : after.Tracked := by
  cases action with
  | push events =>
      cases stepped
      refine ⟨?_, ?_, tracked.counted_push _, state.sink.length_push_le _,
        tracked.batchBounded, fun taken isTaken waiting isWaiting => ?_⟩
      · rw [List.map_append, tracked.numbered, serials_tag, List.length_append, length_tag,
          List.range_add]
      · refine (tracked.accounted.append_right _).trans ?_
        refine List.Perm.trans ?_ (perm_push state.sink state.delivered state.discarded
          state.batch (state.tag events))
        unfold undelivered
        simp only [List.append_assoc]
        exact List.Perm.refl _
      · rcases mem_push isWaiting with old | new
        · exact tracked.batchOlder taken isTaken waiting old
        · exact (tracked.undelivered_lt (List.mem_append_left _ isTaken)).trans_le
            (le_serial_of_mem_tag new)
  | take =>
      obtain ⟨idle, rfl⟩ := step_take stepped
      refine ⟨tracked.numbered, ?_, tracked.counted, Nat.zero_le _, tracked.bounded,
        fun _ _ _ isWaiting => absurd isWaiting List.not_mem_nil⟩
      have accounted := tracked.accounted
      unfold undelivered at accounted ⊢
      rw [idle, List.nil_append] at accounted
      rw [List.append_nil]
      exact accounted
  | posted =>
      obtain ⟨_, rfl⟩ := step_posted stepped
      refine ⟨tracked.numbered, ?_, tracked.counted, tracked.bounded, Nat.zero_le _,
        fun _ isTaken => absurd isTaken List.not_mem_nil⟩
      refine tracked.accounted.trans ?_
      unfold undelivered
      simp only [List.append_assoc, List.nil_append]
      exact (List.perm_append_comm_assoc _ _ _).append_left _
  | failed =>
      obtain ⟨_, rfl⟩ := step_failed stepped
      refine ⟨tracked.numbered, ?_, tracked.counted_push _, state.sink.length_push_le _,
        Nat.zero_le _, fun _ isTaken => absurd isTaken List.not_mem_nil⟩
      refine tracked.accounted.trans (List.Perm.trans ?_ (perm_push state.sink state.delivered
        state.discarded [] state.batch))
      exact List.perm_append_comm.append_left _

end Tracked

/-! ## Newest wins -/

/-- The action pushes more than the backlog has room for. -/
def Overflows (state : Exporter Event) (action : Action Event) : Prop :=
  maxPendingEvents < state.sink.pending.length + (state.incoming action).length

/-- An overflow finds no post under way and the backlog in the order of production. -/
def Orderly (state : Exporter Event) (action : Action Event) : Prop :=
  state.Overflows action → state.batch = [] ∧
    state.sink.pending.Pairwise fun earlier later => earlier.serial < later.serial

section Newest

variable {state after : Exporter Event} {items : List (Produced Event)}

theorem overflow_eq_zero_iff :
    state.sink.overflow items = 0 ↔
      ¬maxPendingEvents < state.sink.pending.length + items.length := by
  unfold AxiomSink.overflow
  rw [List.length_append]
  omega

/-- What a push adds is newer than everything that was discarded. -/
theorem NewestKept.push_of_fits (kept : state.NewestKept) (tracked : state.Tracked)
    {events : List Event} (fits : state.sink.overflow (state.tag events) = 0)
    (stepped : state.step (.push events) = some after) : after.NewestKept := by
  cases stepped
  intro lost isLost saved isSaved
  rw [AxiomSink.cutOff_of_fits fits, List.append_nil] at isLost
  rcases List.mem_append.mp isSaved with inBatch | isPending
  · exact kept lost isLost saved (List.mem_append_left _ inBatch)
  · rcases Tracked.mem_push isPending with old | new
    · exact kept lost isLost saved (List.mem_append_right _ old)
    · exact (tracked.discarded_lt isLost).trans_le (le_serial_of_mem_tag new)

/-- A backlog in order loses its oldest events. -/
theorem NewestKept.push_of_orderly (kept : state.NewestKept) (tracked : state.Tracked)
    {events : List Event} (idle : state.batch = [])
    (inOrder : state.sink.pending.Pairwise fun earlier later => earlier.serial < later.serial)
    (stepped : state.step (.push events) = some after) : after.NewestKept := by
  cases stepped
  have whole : (state.sink.pending ++ state.tag events).Pairwise fun earlier later =>
      earlier.serial < later.serial := by
    refine List.pairwise_append.mpr ⟨inOrder, increasing_tag state events, ?_⟩
    intro old isOld new isNew
    exact (tracked.undelivered_lt (List.mem_append_right _ isOld)).trans_le
      (le_serial_of_mem_tag isNew)
  rw [← AxiomSink.cutOff_append_push] at whole
  intro lost isLost saved isSaved
  have isPending : saved ∈ (state.sink.push (state.tag events)).pending := by
    rcases List.mem_append.mp isSaved with inBatch | isPending
    · change saved ∈ state.batch at inBatch
      rw [idle] at inBatch
      exact absurd inBatch List.not_mem_nil
    · exact isPending
  rcases List.mem_append.mp isLost with before | now
  · rcases Tracked.mem_push isPending with old | new
    · exact kept lost before saved (List.mem_append_right _ old)
    · exact (tracked.discarded_lt before).trans_le (le_serial_of_mem_tag new)
  · exact (List.pairwise_append.mp whole).2.2 lost now saved isPending

/-- An orderly step discards only what is older than everything kept. -/
theorem NewestKept.step (kept : state.NewestKept) (tracked : state.Tracked)
    {action : Action Event} (orderly : state.Orderly action)
    (stepped : state.step action = some after) : after.NewestKept := by
  cases action with
  | push events =>
      by_cases overflows : state.Overflows (.push events)
      · obtain ⟨idle, inOrder⟩ := orderly overflows
        exact kept.push_of_orderly tracked idle inOrder stepped
      · exact kept.push_of_fits tracked (overflow_eq_zero_iff.mpr overflows) stepped
  | take =>
      obtain ⟨idle, rfl⟩ := step_take stepped
      intro lost isLost saved isSaved
      refine kept lost isLost saved ?_
      unfold undelivered at isSaved ⊢
      rw [idle, List.nil_append]
      rwa [List.append_nil] at isSaved
  | posted =>
      obtain ⟨_, rfl⟩ := step_posted stepped
      exact fun lost isLost saved isSaved =>
        kept lost isLost saved (List.mem_append_right _ isSaved)
  | failed =>
      obtain ⟨busy, rfl⟩ := step_failed stepped
      have fits : state.sink.overflow state.batch = 0 :=
        overflow_eq_zero_iff.mpr fun overflows => busy (orderly overflows).1
      intro lost isLost saved isSaved
      rw [AxiomSink.cutOff_of_fits fits, List.append_nil] at isLost
      refine kept lost isLost saved ?_
      rcases Tracked.mem_push isSaved with waiting | taken
      · exact List.mem_append_right _ waiting
      · exact List.mem_append_left _ taken

/-- Something is cut off when there is no room. -/
theorem exists_mem_cutOff (overflows : maxPendingEvents <
    state.sink.pending.length + items.length) : ∃ lost, lost ∈ state.sink.cutOff items := by
  refine List.exists_mem_of_length_pos ?_
  rw [AxiomSink.length_cutOff]
  exact Nat.pos_of_ne_zero fun none => overflow_eq_zero_iff.mp none overflows

/-- An overflow during a post, or from putting a batch back, discards events that are newer
than the batch, which is kept. -/
theorem not_newestKept_of_overflow (tracked : state.Tracked) {action : Action Event}
    (busy : state.batch ≠ []) (overflows : state.Overflows action)
    (stepped : state.step action = some after) : ¬after.NewestKept := by
  have bounded := tracked.bounded
  obtain ⟨taken, isTaken⟩ := List.exists_mem_of_ne_nil _ busy
  intro kept
  cases action with
  | push events =>
      cases stepped
      obtain ⟨lost, isLost⟩ := exists_mem_cutOff overflows
      have newer : taken.serial < lost.serial := by
        rcases List.mem_append.mp (List.mem_of_mem_take isLost) with old | new
        · exact tracked.batchOlder taken isTaken lost old
        · exact (tracked.undelivered_lt (List.mem_append_left _ isTaken)).trans_le
            (le_serial_of_mem_tag new)
      exact Nat.lt_asymm newer
        (kept lost (List.mem_append_right _ isLost) taken (List.mem_append_left _ isTaken))
  | take => exact absurd overflows (Nat.not_lt.mpr bounded)
  | posted => exact absurd overflows (Nat.not_lt.mpr bounded)
  | failed =>
      obtain ⟨_, rfl⟩ := step_failed stepped
      obtain ⟨lost, isLost⟩ : ∃ lost, lost ∈ state.sink.cutOff state.batch :=
        exists_mem_cutOff overflows
      have short : state.sink.overflow state.batch ≤ state.sink.pending.length := by
        have batchBounded := tracked.batchBounded
        unfold AxiomSink.overflow
        rw [List.length_append]
        omega
      have waited : lost ∈ state.sink.pending := by
        unfold AxiomSink.cutOff at isLost
        rw [List.take_append_of_le_length short] at isLost
        exact List.mem_of_mem_take isLost
      have saved : taken ∈ (state.sink.push state.batch).pending := by
        rw [AxiomSink.push_pending, List.drop_append_of_le_length short]
        exact List.mem_append_right _ isTaken
      exact Nat.lt_asymm (tracked.batchOlder taken isTaken lost waited)
        (kept lost (List.mem_append_right _ isLost) taken saved)

end Newest

section Run

variable {actions : List (Action Event)} {final : Exporter Event}

theorem tracked_run (executed : run step {} actions = some final) : final.Tracked :=
  run_preserves Tracked (fun _ _ _ tracked stepped => tracked.step stepped) .new executed

/--
In every interleaving the backlog is bounded and every lost event is counted.
Where each overflow finds no post under way and a backlog in order, the newest
events are kept; an overflow during a post, or from a batch put back, never
keeps them.
-/
theorem newest_kept_of_orderly (executed : run step {} actions = some final) :
    final.sink.pending.length ≤ maxPendingEvents ∧
    final.sink.dropped = final.discarded.length ∧
    final.produced.Perm (final.delivered ++ final.discarded ++ final.undelivered) ∧
    (StepsMeet step Orderly {} actions → final.NewestKept) ∧
    ∀ action after, final.batch ≠ [] → final.Overflows action →
      final.step action = some after → ¬after.NewestKept := by
  have tracked := tracked_run executed
  refine ⟨tracked.bounded, tracked.counted, tracked.accounted, fun met => ?_,
    fun _ _ busy overflows stepped => not_newestKept_of_overflow tracked busy overflows stepped⟩
  have kept := run_related_of_stepsMeet
    (fun before after : Exporter Event => before.Tracked ∧ before.NewestKept →
      after.Tracked ∧ after.NewestKept) (fun _ => id)
    (fun _ _ _ first second => second ∘ first)
    (fun _ _ _ orderly stepped both => ⟨both.1.step stepped, both.2.step both.1 orderly stepped⟩)
    met executed
  exact (kept ⟨.new, fun _ isLost => absurd isLost List.not_mem_nil⟩).2

end Run

/-- One event is put back by a failed post, and then a whole backlog is pushed. -/
def recovery : List (Action Unit) :=
  [.push [()], .take, .failed, .push (List.replicate maxPendingEvents ())]

/-- One event waits: it has been pushed or put back. -/
def waiting : Exporter Unit where
  sink := { pending := [{ serial := 0, event := () }] }
  produced := [{ serial := 0, event := () }]

theorem step_waiting : step ({} : Exporter Unit) (.push [()]) = some waiting := by
  simp [Exporter.step, AxiomSink.push, AxiomSink.cutOff, AxiomSink.overflow, tag, waiting,
    maxPendingEvents]

/-- The event is being posted. -/
def posting : Exporter Unit where
  batch := [{ serial := 0, event := () }]
  produced := [{ serial := 0, event := () }]

theorem step_posting : posting.step .failed = some waiting := by
  simp [Exporter.step, AxiomSink.push, AxiomSink.cutOff, AxiomSink.overflow, waiting, posting,
    maxPendingEvents]

theorem orderly_of_fits {state : Exporter Event} {action : Action Event}
    (fits : state.sink.pending.length + (state.incoming action).length ≤ maxPendingEvents) :
    state.Orderly action :=
  fun overflows => absurd fits (Nat.not_le.mpr overflows)

/-- The last push overflows the backlog by one, in order and while no post is under way: the
oldest event is discarded. -/
theorem newest_kept_of_orderly_recovery : ∃ final, run step {} recovery = some final ∧
    final.discarded = waiting.sink.pending ∧ final.sink.dropped = 1 ∧
    final.sink.pending.length ≤ maxPendingEvents ∧ final.NewestKept := by
  have took : waiting.step .take = some posting := rfl
  have full : (waiting.tag (List.replicate maxPendingEvents ())).length = maxPendingEvents :=
    length_tag.trans List.length_replicate
  obtain ⟨final, pushed, discarded⟩ : ∃ final,
      waiting.step (.push (List.replicate maxPendingEvents ())) = some final ∧
        final.discarded = waiting.sink.pending :=
    ⟨_, rfl, (List.nil_append _).trans (AxiomSink.cutOff_of_full full)⟩
  have reached : run step {} recovery = some final := by
    unfold recovery
    rw [run_cons, step_waiting, Option.bind_some, run_cons, took, Option.bind_some, run_cons,
      step_posting, Option.bind_some, run_singleton]
    exact pushed
  have orderly : StepsMeet step Orderly {} recovery := by
    refine (stepsMeet_cons_of_step _ step_waiting).mpr ⟨orderly_of_fits (by decide), ?_⟩
    refine (stepsMeet_cons_of_step _ took).mpr ⟨orderly_of_fits (by decide), ?_⟩
    refine (stepsMeet_cons_of_step _ step_posting).mpr ⟨orderly_of_fits (by decide), ?_⟩
    exact ⟨fun _ => ⟨rfl, List.pairwise_singleton _ _⟩, fun _ _ => trivial⟩
  obtain ⟨bounded, counted, _, newest, _⟩ := newest_kept_of_orderly reached
  exact ⟨final, reached, discarded, counted.trans (congrArg List.length discarded), bounded,
    newest orderly⟩

/-- One event is taken, and while its post fails a whole backlog is pushed. -/
def outage : List (Action Unit) :=
  [.push [()], .take, .push (List.replicate maxPendingEvents ())]

/-- Events that fit are pushed onto an empty backlog. -/
theorem push_onto_empty {state : Exporter Event} (empty : state.sink.pending = [])
    (events : List Event) (fits : events.length ≤ maxPendingEvents) :
    ∃ after, state.step (.push events) = some after ∧ after.batch = state.batch ∧
      after.sink.pending.length = events.length := by
  refine ⟨_, rfl, rfl, ?_⟩
  change (state.sink.push (state.tag events)).pending.length = events.length
  have room : state.sink.overflow (state.tag events) = 0 := by
    refine overflow_eq_zero_iff.mpr ?_
    rw [empty, length_tag, List.length_nil]
    omega
  rw [AxiomSink.push_pending_of_fits room, empty, List.nil_append, length_tag]

/-- The backlog and the batch before the post fails. -/
theorem outage_reached : ∃ state, run step {} outage = some state ∧ state.batch ≠ [] ∧
    state.sink.pending.length = maxPendingEvents := by
  obtain ⟨first, pushed, idle, one⟩ : ∃ first, step ({} : Exporter Unit) (.push [()]) =
      some first ∧ first.batch = [] ∧ first.sink.pending.length = 1 :=
    push_onto_empty rfl [()] (by decide)
  obtain ⟨second, took, batch, empty⟩ : ∃ second, first.step .take = some second ∧
      second.batch = first.sink.pending ∧ second.sink.pending = [] :=
    ⟨_, if_pos idle, rfl, rfl⟩
  obtain ⟨third, pushedMore, sameBatch, full⟩ :=
    push_onto_empty empty (List.replicate maxPendingEvents ())
      (Nat.le_of_eq List.length_replicate)
  refine ⟨third, ?_, ?_, full.trans List.length_replicate⟩
  · unfold outage
    rw [run_cons, pushed, Option.bind_some, run_cons, took, Option.bind_some, run_singleton]
    exact pushedMore
  · rw [sameBatch, batch]
    exact List.ne_nil_of_length_eq_add_one one

/-- The failed post discards the oldest event of the outage and keeps the one before it. -/
theorem failed_post_keeps_oldest : ∃ final,
    run step {} (outage ++ [Action.failed]) = some final ∧ ¬final.NewestKept := by
  obtain ⟨state, reached, busy, full⟩ := outage_reached
  have positive : 0 < state.batch.length := List.length_pos_iff.mpr busy
  have overflows : state.Overflows .failed := by
    change maxPendingEvents < state.sink.pending.length + state.batch.length
    omega
  obtain ⟨final, stepped⟩ : ∃ final, state.step .failed = some final := ⟨_, if_neg busy⟩
  exact ⟨final, run_concat_of_step reached stepped,
    not_newestKept_of_overflow (tracked_run reached) busy overflows stepped⟩

end Exporter

end MarketBenchmark.NodeExporter
