import MarketBenchmark.Outbox.Health
import MarketBenchmark.Outbox.Invariant
import MarketBenchmark.Outbox.Moves

/-!
# What the steps of the outbox do to its queue and directory

An operation of the call that holds the lock goes on, or leads to one of three
returns.  A step of the delivery loop only takes names away, and changes the
queue only when nobody else has the lock.
-/

namespace MarketBenchmark.Outbox

open Foundation

variable {config : OutboxConfig} {Event : Type} {encode : Event → Option Bytes}

/-! ## What the actions of the machine do -/

theorem mem_names_record {disk : Disk Name File} {change : Change Name File} {name : Name}
    (member : name ∈ (disk.record change).visible.entries.map Prod.fst) :
    (∃ file, change.written = some (name, file)) ∨ name ∈ disk.visible.entries.map Prod.fst := by
  obtain ⟨⟨_, file⟩, found, rfl⟩ := List.mem_map.mp member
  rw [Disk.visible_record] at found
  rcases Change.mem_apply found with written | before
  · exact Or.inl ⟨file, written⟩
  · exact Or.inr (List.mem_map.mpr ⟨_, before, rfl⟩)

/-- A removal adds no name. -/
theorem names_remove {disk : Disk Name File} {removed name : Name}
    (member : name ∈ (disk.record (.remove removed)).visible.entries.map Prod.fst) :
    name ∈ disk.visible.entries.map Prod.fst := by
  rcases mem_names_record member with ⟨_, written⟩ | before
  · cases written
  · exact before

/-- Writing a file adds at most its name. -/
theorem names_write {disk : Disk Name File} {written name : Name} {file : File}
    (member : name ∈ (disk.record (.write written file)).visible.entries.map Prod.fst) :
    name = written ∨ name ∈ disk.visible.entries.map Prod.fst := by
  rcases mem_names_record member with ⟨_, same⟩ | before
  · cases same
    exact Or.inl rfl
  · exact Or.inr before

/-- An operation that `persist_body` goes on after: nothing but its temporary name is new, as long
as the file is not renamed. -/
structure GoesOn (m next : Machine) (p after : Process) (job : Job) : Prop where
  state : after.state = p.state
  poisoned : after.poisoned = p.poisoned
  isJob : after.persister.job = some job
  names : after.persister.renamed = [] → p.persister.renamed = [] ∧
    ∀ name ∈ next.names, name = job.temp ∨ name ∈ m.names

/-- An operation that `persist_body` goes on after without renaming the file. -/
theorem goesOn_of_unrenamed {m next : Machine} {p after : Process} {before : Persister} {job : Job}
    (stage : p.persister = before) (queued : before.renamed = []) (state : after.state = p.state)
    (poisoned : after.poisoned = p.poisoned) (isJob : after.persister.job = some job)
    (names : ∀ name ∈ next.names, name = job.temp ∨ name ∈ m.names) :
    GoesOn m next p after job where
  state := state
  poisoned := poisoned
  isJob := isJob
  names := fun _ => ⟨by rw [stage]; exact queued, names⟩

/-- What an operation leads to, by the return that it settles: the call goes on, drops its batch,
leaves the outbox poisoned or queues the batch. -/
inductive Leads (m next : Machine) (p : Process) (health : IngestHealth) (job : Job) :
    Option (Job × IngestHealth × PersistResult) → Process → Prop where
  | goesOn {after : Process} (goes : GoesOn m next p after job) :
      Leads m next p health job none after
  | drops (queued : p.persister.renamed = []) (names : ∀ name ∈ next.names, name ∈ m.names) :
      Leads m next p health job
        (some (job, health.writeFailure.recordDrop job.file.events false, .dropped))
        { p with persister := .idle }
  | poisons :
      Leads m next p health job (some (job, health.writeFailure, .ambiguous))
        { p with persister := .idle, poisoned := true }
  | queues :
      Leads m next p health job (some (job, health.queue job.file, .persisted))
        { p with
          persister := .idle
          state := { files := p.state.files ++ [job.file], bytes := job.nextBytes } }

/-- What an operation of the call that holds the lock does. -/
theorem operation_cases {m next : Machine} {p : Process} {action : PersistAction Event}
    (operates : Operates m p action next) (health : IngestHealth) :
    ∃ job after, p.persister.job = some job ∧ next.process = some after ∧
      Leads m next p health job (settled health p.persister action) after := by
  cases operates with
  | @created job stage _ =>
      rw [stage]
      exact ⟨job, _, rfl, rfl,
        .goesOn (goesOn_of_unrenamed stage rfl rfl rfl rfl fun _ => names_write)⟩
  | @uncreated job _ stage =>
      rw [stage]
      exact ⟨job, _, rfl, rfl,
        .goesOn (goesOn_of_unrenamed stage rfl rfl rfl rfl fun _ => Or.inr)⟩
  | @written job _ stage =>
      rw [stage]
      exact ⟨job, _, rfl, rfl,
        .goesOn (goesOn_of_unrenamed stage rfl rfl rfl rfl fun _ => names_write)⟩
  | @torn job _ stage =>
      rw [stage]
      exact ⟨job, _, rfl, rfl,
        .goesOn (goesOn_of_unrenamed stage rfl rfl rfl rfl fun _ => names_write)⟩
  | @synced job _ stage _ =>
      rw [stage]
      exact ⟨job, _, rfl, rfl,
        .goesOn (goesOn_of_unrenamed stage rfl rfl rfl rfl fun _ => names_write)⟩
  | @unsynced job _ stage =>
      rw [stage]
      exact ⟨job, _, rfl, rfl,
        .goesOn (goesOn_of_unrenamed stage rfl rfl rfl rfl fun _ => Or.inr)⟩
  | @removed job stage =>
      rw [stage]
      exact ⟨job, _, rfl, rfl, .drops (by rw [stage]; rfl) fun _ => names_remove⟩
  | @unremoved job stage =>
      rw [stage]
      exact ⟨job, _, rfl, rfl, .drops (by rw [stage]; rfl) fun _ member => member⟩
  | @renamed job _ stage _ =>
      rw [stage]
      exact ⟨job, _, rfl, rfl,
        .goesOn ⟨rfl, rfl, rfl, fun none => absurd none (List.cons_ne_nil _ _)⟩⟩
  | @unrenamed job _ stage =>
      rw [stage]
      exact ⟨job, _, rfl, rfl,
        .goesOn (goesOn_of_unrenamed stage rfl rfl rfl rfl fun _ => Or.inr)⟩
  | @settled job stage =>
      rw [stage]
      exact ⟨job, _, rfl, rfl,
        .goesOn ⟨rfl, rfl, rfl, fun none => absurd none (List.cons_ne_nil _ _)⟩⟩
  | @unsettled job stage =>
      rw [stage]
      exact ⟨job, _, rfl, rfl, .poisons⟩
  | @pushed job stage =>
      rw [stage]
      exact ⟨job, _, rfl, rfl, .queues⟩

/-- The ledger follows the machine through an operation, and logs the return that it leads to. -/
theorem operate_spec {ledger after : Ledger Event} {p : Process} {action : PersistAction Event}
    (stepped : ledger.operate encode config p action = some after) :
    (∀ events now id, action ≠ .submit events now id) ∧ ∃ next later,
      persistStep encode config ledger.machine p action = some next ∧
      next.process = some later ∧
      (settled ledger.health p.persister action = none → after = { ledger with machine := next }) ∧
      ∀ job health result, settled ledger.health p.persister action = some (job, health, result) →
        after = { ledger with machine := next }.answer later ledger.locked job.file.events health
          result := by
  unfold Ledger.operate at stepped
  split at stepped
  · cases stepped
  next notSubmit =>
    obtain ⟨next, acted, mapped⟩ := Option.bind_eq_some_iff.mp stepped
    obtain ⟨later, current, same⟩ := Option.map_eq_some_iff.mp mapped
    refine ⟨notSubmit, next, later, acted, current, fun none => ?_,
      fun job health result some => ?_⟩
    · rw [none] at same
      exact same.symm
    · rw [some] at same
      exact same.symm

/-- A step of the delivery loop leaves the queue as it is, or has the lock and takes a file out. -/
structure Works (m next : Machine) (p after : Process) (health counted : IngestHealth) : Prop where
  process : next.process = some after
  persister : after.persister = p.persister
  poisoned : after.poisoned = p.poisoned
  names : ∀ name ∈ next.names, name ∈ m.names
  queue : (after.state = p.state ∧ counted = health) ∨
    p.persister = .idle ∧ ∃ named removed,
      p.state.files.find? (fun pending => pending.name = named) = some removed ∧
      counted = health.unqueue removed ∧
      after.state =
        { files := p.state.files.eraseP fun pending => pending.name = named
          bytes := p.state.bytes - removed.bytes }

theorem works_of_quiet {m next : Machine} {p after : Process} {health counted : IngestHealth}
    (process : next.process = some after) (names : ∀ name ∈ next.names, name ∈ m.names)
    (persister : after.persister = p.persister) (poisoned : after.poisoned = p.poisoned)
    (state : after.state = p.state) (same : counted = health) :
    ∃ after, Works m next p after health counted :=
  ⟨after, process, persister, poisoned, names, Or.inl ⟨state, same⟩⟩

/-- What a step of the delivery loop does. -/
theorem work_cases {m next : Machine} {p : Process} {action : WorkAction} (health : IngestHealth)
    (delivers : Delivers m p action next) :
    ∃ after, Works m next p after health (worked health p action) := by
  cases delivers with
  | unlinked _ => exact works_of_quiet rfl (fun _ => names_remove) rfl rfl rfl rfl
  | @forgets file removed worker idle found =>
      have counted : worked health p .forget = health.unqueue removed := by
        unfold worked
        rw [worker]
        dsimp only
        rw [found]
        rfl
      exact ⟨_, rfl, rfl, rfl, fun _ member => member,
        Or.inr ⟨idle, file.name, removed, found, counted, rfl⟩⟩
  | unknown worker absent =>
      have counted : worked health p .forget = health := by
        unfold worked
        rw [worker]
        dsimp only
        rw [absent]
        rfl
      exact works_of_quiet rfl (fun _ member => member) rfl rfl rfl counted
  | _ => exact works_of_quiet rfl (fun _ member => member) rfl rfl rfl rfl

/-- A call that gets past the refusals has a job, and any other one does nothing. -/
theorem submit_cases (encode : Event → Option Bytes) (config : OutboxConfig) (m : Machine)
    (p : Process)
    {events : List Event} {batch : Batch} (built : batchOf encode events = some batch) (now : Nat)
    (id : List Char) :
    submit encode config m p events now id = m ∨
    refusal config p batch now = none ∧ ∃ job,
      submit encode config m p events now id =
        { m with
          log := m.log ++ [batch]
          process := some { p with persister := .creating job } } := by
  unfold submit
  by_cases unwritable : p.poisoned ∨ events = []
  · exact Or.inl (if_pos unwritable)
  · rw [if_neg unwritable, built]
    dsimp only
    cases admitted : admitBatch config p.state batch now id m.log.length with
    | none => exact Or.inl rfl
    | some job =>
        refine Or.inr ⟨?_, job, rfl⟩
        unfold admitBatch at admitted
        dsimp only at admitted
        split at admitted
        · cases admitted
        next room =>
          obtain ⟨order, ordered, _⟩ := Option.map_eq_some_iff.mp admitted
          unfold refusal
          dsimp only
          rw [if_neg fun poisoned => unwritable (Or.inl poisoned), if_neg room, ordered]
          rfl

end MarketBenchmark.Outbox
