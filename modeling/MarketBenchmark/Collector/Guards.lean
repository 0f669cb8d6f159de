import MarketBenchmark.Collector.Delivery
import MarketBenchmark.Foundation.Journals

/-!
# Signals are what the journal tells

The signals of a stream are written by three kinds of events: its task takes a
guard or drops it, and an event of the stream is offered to the queue.  Each
signal therefore has the value that the last entry of the journal which writes
it gave it, and the stream is shown as connected exactly while a task holds its
guard.
-/

namespace MarketBenchmark

open Foundation.Channels
open Foundation.HashMaps
open Foundation.Journals
open Foundation.Runs

namespace Entry

/-- A guard of the stream is taken or dropped. -/
def writesUp (stream : Stream) : Entry → Option Bool
  | .connected other => if other = stream then some true else none
  | .disconnected other => if other = stream then some false else none
  | .offered _ _ _ => none

/-- A guard clears the time of the last message, and a market event sets it. -/
def writesMessage (stream : Stream) : Entry → Option Nat
  | .connected other => if other = stream then some 0 else none
  | .disconnected other => if other = stream then some 0 else none
  | .offered event _ _ =>
      match event with
      | .market market => if event.stream = stream then some market.receivedWallMs else none
      | _ => none

/-- A dropped event sets the time of the last drop. -/
def writesDrop (stream : Stream) : Entry → Option Nat
  | .offered event .full nowMs =>
      if event.stream = stream then some (event.dropStampMs nowMs) else none
  | _ => none

end Entry

namespace Collector

variable {collector after : Collector}

/-- The signals of every stream have the values last written to them. -/
structure Told (collector : Collector) : Prop where
  up : ∀ stream, (collector.signals.streams stream).connectionUp =
    (lastWrite (Entry.writesUp stream) collector.journal).getD false
  message : ∀ stream, (collector.signals.streams stream).lastMessageWallMs =
    (lastWrite (Entry.writesMessage stream) collector.journal).getD 0
  drop : ∀ stream, (collector.signals.streams stream).lastQueueDropWallMs =
    (lastWrite (Entry.writesDrop stream) collector.journal).getD 0

namespace Told

theorem start (config : BenchmarkConfig) (tasks : List StreamTask) (now wallNowMs : Nat) :
    Told (Collector.start config tasks now wallNowMs) :=
  ⟨fun _ => rfl, fun _ => rfl, fun _ => rfl⟩

/-- A signal is stored and an entry tells of what changed in it. -/
theorem write {Value : Type} {field : StreamSignal → Value} {initial : Value}
    {writes : Stream → Entry → Option Value} {table : SignalTable} {journal : List Entry}
    (told : ∀ stream, field (table.streams stream) =
      (lastWrite (writes stream) journal).getD initial)
    {stream : Stream} {signal : StreamSignal} {entry : Entry}
    (others : ∀ other, stream ≠ other → writes other entry = none)
    (own : writes stream entry = some (field signal) ∨
      writes stream entry = none ∧ field signal = field (table.streams stream))
    (other : Stream) :
    field ((table.store stream signal).streams other) =
      (lastWrite (writes other) (journal ++ [entry])).getD initial := by
  rw [lastWrite_concat, SignalTable.store_streams]
  by_cases same : stream = other
  · subst same
    rw [Function.update_self]
    rcases own with wrote | ⟨silent, kept⟩
    · rw [wrote]
      rfl
    · rw [silent, kept]
      exact told stream
  · rw [Function.update_of_ne (fun equal => same equal.symm), others other same]
    exact told other

theorem guard (told : Told collector) (task : StreamTask) (nowMs : Nat) :
    Told (collector.guard task (collector.signals.streams task.stream) nowMs) where
  up := write told.up (fun _ other => if_neg other) (Or.inl (if_pos rfl))
  message := write told.message (fun _ other => if_neg other) (Or.inl (if_pos rfl))
  drop := write told.drop (fun _ _ => rfl) (Or.inr ⟨rfl, rfl⟩)

theorem release (told : Told collector) (task : StreamTask) :
    Told (collector.release task true) where
  up := write told.up (fun _ other => if_neg other) (Or.inl (if_pos rfl))
  message := write told.message (fun _ other => if_neg other) (Or.inl (if_pos rfl))
  drop := write told.drop (fun _ _ => rfl) (Or.inr ⟨rfl, rfl⟩)

theorem send (told : Told collector) {event : ProbeEvent} {nowMs : Nat} {outcome : Outcome}
    (sent : collector.send event nowMs = some (after, outcome)) : Told after := by
  obtain ⟨_, _, rfl⟩ := send_eq_some sent
  refine ⟨write told.up (fun _ _ => rfl) (Or.inr ⟨rfl, ?_⟩), write told.message ?_ ?_,
    write told.drop ?_ ?_⟩
  · cases outcome <;> cases event <;> rfl
  · intro other different
    cases event with
    | market market => exact if_neg different
    | _ => rfl
  · cases event with
    | market market =>
        refine Or.inl ((if_pos rfl).trans (congrArg some ?_))
        cases outcome <;> rfl
    | _ => exact Or.inr ⟨rfl, by cases outcome <;> rfl⟩
  · intro other different
    cases outcome with
    | full => exact if_neg different
    | _ => rfl
  · cases outcome with
    | full => exact Or.inl (if_pos rfl)
    | _ => exact Or.inr ⟨rfl, by cases event <;> rfl⟩

theorem step (told : Told collector) {action : Action}
    (stepped : collector.step action = some after) : Told after :=
  step_induction Told stepped told (fun _ _ _ held => ⟨held.up, held.message, held.drop⟩)
    (fun _ task nowMs _ held => held.guard task nowMs)
    (fun _ task _ held => held.release task)
    (fun _ _ _ _ _ sent held => held.send sent)
    (fun _ _ _ _ _ _ => ⟨told.up, told.message, told.drop⟩)
    (fun _ _ _ _ => ⟨told.up, told.message, told.drop⟩)
    ⟨told.up, told.message, told.drop⟩

end Told

/-! ## Guards -/

/-- A task of the stream holds a guard. -/
def Holding (tasks : List StreamTask) (stream : Stream) : Prop :=
  ∃ task ∈ tasks, task.stream = stream ∧ task.phase = .running true

theorem split_set {tasks : List StreamTask} {index : Nat} {old : StreamTask}
    (found : tasks[index]? = some old) :
    ∃ front back, tasks = front ++ old :: back ∧
      ∀ new, tasks.set index new = front ++ new :: back := by
  induction tasks generalizing index with
  | nil => cases found
  | cons task rest ih =>
      cases index with
      | zero =>
          cases Option.some.inj found
          exact ⟨[], rest, rfl, fun _ => rfl⟩
      | succ index =>
          obtain ⟨front, back, rfl, set⟩ := ih found
          exact ⟨task :: front, back, rfl, fun new => congrArg (task :: ·) (set new)⟩

/-- A task that moves on keeps its stream and the guards of the other streams. -/
theorem holding_set {tasks : List StreamTask} {index : Nat} {old new : StreamTask}
    (found : tasks[index]? = some old) (same : new.stream = old.stream)
    (distinct : (tasks.map StreamTask.stream).Nodup) :
    (tasks.set index new).map StreamTask.stream = tasks.map StreamTask.stream ∧
      ∀ stream, Holding (tasks.set index new) stream ↔
        if stream = old.stream then new.phase = .running true else Holding tasks stream := by
  obtain ⟨front, back, rfl, set⟩ := split_set found
  rw [set new]
  refine ⟨by simp [same], fun stream => ?_⟩
  have others : ∀ task ∈ front ++ back, task.stream ≠ old.stream := by
    rw [List.map_append, List.map_cons] at distinct
    have apart := (List.nodup_middle.mp distinct).notMem
    rw [← List.map_append] at apart
    exact fun task member equal => apart (List.mem_map.mpr ⟨task, member, equal⟩)
  unfold Holding
  by_cases own : stream = old.stream
  · rw [if_pos own]
    constructor
    · rintro ⟨task, member, equal, holds⟩
      rcases List.mem_append.mp member with inFront | inBack
      · exact absurd (equal.trans own) (others task (List.mem_append_left back inFront))
      · rcases List.mem_cons.mp inBack with rfl | inBack
        · exact holds
        · exact absurd (equal.trans own) (others task (List.mem_append_right front inBack))
    · intro holds
      exact ⟨new, List.mem_append_right front List.mem_cons_self, same.trans own.symm, holds⟩
  · rw [if_neg own]
    have kept : ∀ task : StreamTask, task.stream = old.stream → task.stream ≠ stream :=
      fun task equal mine => own (mine.symm.trans equal)
    constructor
    · rintro ⟨task, member, equal, holds⟩
      rcases List.mem_append.mp member with inFront | inBack
      · exact ⟨task, List.mem_append_left _ inFront, equal, holds⟩
      · rcases List.mem_cons.mp inBack with rfl | inBack
        · exact absurd equal (kept task same)
        · exact ⟨task, List.mem_append_right _ (List.mem_cons_of_mem _ inBack), equal, holds⟩
    · rintro ⟨task, member, equal, holds⟩
      rcases List.mem_append.mp member with inFront | inBack
      · exact ⟨task, List.mem_append_left _ inFront, equal, holds⟩
      · rcases List.mem_cons.mp inBack with rfl | inBack
        · exact absurd equal (kept task rfl)
        · exact ⟨task, List.mem_append_right _ (List.mem_cons_of_mem _ inBack), equal, holds⟩

/-- The guard of a stream is with the one task of the stream. -/
theorem holding_iff {tasks : List StreamTask} {index : Nat} {task : StreamTask}
    (found : tasks[index]? = some task) (distinct : (tasks.map StreamTask.stream).Nodup) :
    Holding tasks task.stream ↔ task.phase = .running true := by
  have holding := (holding_set found rfl distinct).2 task.stream
  obtain ⟨front, back, same, set⟩ := split_set found
  rwa [set task, ← same, if_pos rfl] at holding

/-- The tasks keep their streams, and a stream is up exactly while its guard is held. -/
structure Guarded (tasks : List StreamTask) (collector : Collector) : Prop where
  streams : collector.tasks.map StreamTask.stream = tasks.map StreamTask.stream
  distinct : (collector.tasks.map StreamTask.stream).Nodup
  up : ∀ stream, (collector.signals.streams stream).connectionUp = true ↔
    Holding collector.tasks stream

namespace Guarded

variable {origin : List StreamTask}

theorem start {config : BenchmarkConfig} {tasks : List StreamTask} {now wallNowMs : Nat}
    (distinct : (tasks.map StreamTask.stream).Nodup) (ready : ∀ task ∈ tasks, task.phase = .ready) :
    Guarded tasks (Collector.start config tasks now wallNowMs) where
  streams := rfl
  distinct := distinct
  up stream := by
    refine iff_of_false Bool.false_ne_true ?_
    rintro ⟨task, member, _, holds⟩
    exact nomatch (ready task member).symm.trans holds

/-- A task moves on while its signal says whether it holds a guard now. -/
theorem move (guarded : Guarded origin collector) {index : Nat} {old : StreamTask}
    (new : StreamTask) (found : collector.tasks[index]? = some old) (same : new.stream = old.stream)
    {signals : SignalTable}
    (others : ∀ stream, stream ≠ old.stream → (signals.streams stream).connectionUp =
      (collector.signals.streams stream).connectionUp)
    (own : (signals.streams old.stream).connectionUp = true ↔ new.phase = .running true)
    {state : Collector} (tasks : state.tasks = collector.tasks.set index new)
    (sameSignals : state.signals = signals) : Guarded origin state := by
  obtain ⟨streams, holding⟩ := holding_set found same guarded.distinct
  refine ⟨?_, ?_, fun stream => ?_⟩
  · rw [tasks, streams]
    exact guarded.streams
  · rw [tasks, streams]
    exact guarded.distinct
  · rw [tasks, sameSignals, holding]
    split
    · next mine => rw [mine, own]
    · next mine => rw [others stream mine, guarded.up]

/-- A send leaves the guards alone. -/
theorem up_of_send {event : ProbeEvent} {nowMs : Nat} {outcome : Outcome}
    (sent : collector.send event nowMs = some (after, outcome)) :
    after.tasks = collector.tasks ∧ ∀ stream, (after.signals.streams stream).connectionUp =
      (collector.signals.streams stream).connectionUp := by
  obtain ⟨_, _, rfl⟩ := send_eq_some sent
  refine ⟨rfl, fun stream => ?_⟩
  rw [SignalTable.store_streams]
  by_cases own : stream = event.stream
  · rw [own, Function.update_self]
    cases outcome <;> cases event <;> rfl
  · rw [Function.update_of_ne own]

/-- A task that returns from its connection leaves its stream down. -/
theorem up_of_release (guarded : Guarded origin collector) {index : Nat} {task : StreamTask}
    {isGuarded : Bool} (found : collector.tasks[index]? = some task)
    (running : task.phase = .running isGuarded) :
    (collector.release task isGuarded).tasks = collector.tasks ∧
      (∀ stream, stream ≠ task.stream →
        ((collector.release task isGuarded).signals.streams stream).connectionUp =
          (collector.signals.streams stream).connectionUp) ∧
      ((collector.release task isGuarded).signals.streams task.stream).connectionUp = false := by
  cases isGuarded with
  | false =>
      refine ⟨rfl, fun _ _ => rfl, ?_⟩
      rw [← Bool.not_eq_true]
      change ¬(collector.signals.streams task.stream).connectionUp = true
      rw [guarded.up, holding_iff found guarded.distinct, running]
      exact fun holds => nomatch holds
  | true =>
      refine ⟨rfl, fun stream other => ?_, ?_⟩
      · exact congrArg StreamSignal.connectionUp (Function.update_of_ne other _ _)
      · change (Function.update collector.signals.streams task.stream _
          task.stream).connectionUp = _
        rw [Function.update_self]
        rfl

theorem step (guarded : Guarded origin collector) {action : Action}
    (stepped : collector.step action = some after) : Guarded origin after := by
  have same : ∀ {state : Collector}, state.tasks = collector.tasks →
      (∀ stream, (state.signals.streams stream).connectionUp =
        (collector.signals.streams stream).connectionUp) → Guarded origin state := by
    intro state tasks signals
    refine ⟨tasks ▸ guarded.streams, tasks ▸ guarded.distinct, fun stream => ?_⟩
    rw [signals, tasks]
    exact guarded.up stream
  cases action with
  | dial index now =>
      obtain ⟨task, found, stepped⟩ := Option.bind_eq_some_iff.mp stepped
      split at stepped
      · next may =>
          obtain ⟨signal, _, rfl⟩ := Option.map_eq_some_iff.mp stepped
          refine guarded.move (task.dial signal now) found rfl (fun _ _ => rfl) ?_ rfl rfl
          rw [guarded.up, holding_iff found guarded.distinct]
          refine iff_of_false (fun holds => ?_) (fun holds => nomatch holds)
          rw [StreamTask.mayDial, holds] at may
          exact Bool.false_ne_true may
      · cases stepped
  | connect index nowMs =>
      obtain ⟨task, found, stepped⟩ := Option.bind_eq_some_iff.mp stepped
      split at stepped
      · obtain ⟨signal, _, rfl⟩ := Option.map_eq_some_iff.mp stepped
        refine guarded.move { task with phase := .running true } found rfl
          (fun stream other => ?_) ?_ rfl rfl
        · exact congrArg StreamSignal.connectionUp (Function.update_of_ne other _ _)
        · refine iff_of_true ?_ rfl
          change (Function.update collector.signals.streams task.stream _
            task.stream).connectionUp = _
          rw [Function.update_self]
          rfl
      · cases stepped
  | send event nowMs =>
      cases event with
      | reconnect _ _ => cases stepped
      | _ =>
          obtain ⟨⟨next, outcome⟩, sent, rfl⟩ := Option.map_eq_some_iff.mp stepped
          exact same (up_of_send sent).1 (up_of_send sent).2
  | finish index ok now nowMs =>
      obtain ⟨task, found, stepped⟩ := Option.bind_eq_some_iff.mp stepped
      split at stepped
      · next isGuarded running =>
          obtain ⟨tasks, others, down⟩ := up_of_release guarded found running
          -- whatever the loop does next, the task holds no guard
          have ended : ∀ {state : Collector} {new : StreamTask},
              state.tasks = collector.tasks →
              (∀ stream, (state.signals.streams stream).connectionUp =
                ((collector.release task isGuarded).signals.streams stream).connectionUp) →
              new.stream = task.stream → new.phase ≠ .running true →
              Guarded origin (state.setTask index new) := by
            intro state new sameTasks signals sameStream free
            refine guarded.move new found sameStream (fun stream other => ?_) ?_
              (congrArg (fun tasks => tasks.set index new) sameTasks) rfl
            · exact (signals stream).trans (others stream other)
            · refine iff_of_false (fun isUp => ?_) free
              exact Bool.false_ne_true (down.symm.trans ((signals task.stream).symm.trans isUp))
          unfold Collector.finish at stepped
          dsimp only at stepped
          split at stepped
          · cases stepped
            exact ended tasks (fun _ => rfl) rfl (fun holds => nomatch holds)
          · obtain ⟨⟨next, outcome⟩, sent, stepped⟩ := Option.map_eq_some_iff.mp stepped
            obtain ⟨sentTasks, sentSignals⟩ := up_of_send sent
            cases outcome with
            | closed =>
                cases stepped
                exact ended (sentTasks.trans tasks) sentSignals rfl (fun holds => nomatch holds)
            | sent =>
                cases stepped
                exact ended (sentTasks.trans tasks) sentSignals rfl (fun holds => nomatch holds)
            | full =>
                cases stepped
                exact ended (sentTasks.trans tasks) sentSignals rfl (fun holds => nomatch holds)
      · cases stepped
  | receive order =>
      simp only [Collector.step] at stepped
      split at stepped
      · cases stepped
      · obtain ⟨⟨event, rest⟩, _, stepped⟩ := Option.bind_eq_some_iff.mp stepped
        obtain ⟨benchmark, _, rfl⟩ := Option.map_eq_some_iff.mp stepped
        exact same rfl fun _ => rfl
  | tick order now =>
      simp only [Collector.step] at stepped
      split at stepped
      · cases stepped
      · obtain ⟨benchmark, _, rfl⟩ := Option.map_eq_some_iff.mp stepped
        exact same rfl fun _ => rfl
  | publish order now wallNowMs clock accepted =>
      simp only [Collector.step] at stepped
      split at stepped
      · cases stepped
      · obtain ⟨benchmark, _, rfl⟩ := Option.map_eq_some_iff.mp stepped
        exact same rfl fun _ => rfl
  | shutdown =>
      cases stepped
      exact same rfl fun _ => rfl

end Guarded

end Collector

end MarketBenchmark
