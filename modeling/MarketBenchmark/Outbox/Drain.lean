import MarketBenchmark.Outbox.Recovery

/-!
# A healthy start drains the outbox

Whatever happened before, a process that starts on the directory posts every
file that it finds, in order, with six operations a file.  When the disk and the
ingest service are healthy meanwhile, all accepted batches are acknowledged at
the end, and no crash brings a batch file back.
-/

namespace MarketBenchmark.Outbox

open Foundation

variable {config : OutboxConfig} {Event : Type}

/-- The operations of the delivery loop on a file when none fails. -/
def deliveries (file : OutboxFile) : List (Action Event) :=
  [.work .next, .work (.read true), .work (.post (some { ingested := file.events, failed := 0 })),
    .work (.unlink true), .work (.commit true), .work .forget]

/-- The process waits with these files, all of which can be read. -/
structure Waits (config : OutboxConfig) (m : Machine) (p : Process) (files : List OutboxFile) :
    Prop where
  process : m.process = some p
  persister : p.persister = .idle
  worker : p.worker = .idle
  files_eq : p.state.files = files
  running : Running config m p []
  readable : ∀ file ∈ files, (file.name, contents m.log file) ∈ m.disk.visible

section Delivery

variable {m : Machine} {p : Process} {file : OutboxFile} {rest : List OutboxFile}

/-- The process once the first file was delivered. -/
def delivered (p : Process) (file : OutboxFile) (rest : List OutboxFile) : Process :=
  { p with
    persister := .idle
    worker := .idle
    acked := p.acked ++ [file.serial]
    state := { files := rest, bytes := p.state.bytes - file.bytes } }

/-- The machine once the first file was delivered. -/
def afterDelivery (m : Machine) (p : Process) (file : OutboxFile) (rest : List OutboxFile) :
    Machine :=
  { m with
    disk := (m.disk.record (.remove file.name)).sync
    acked := m.acked ++ [file.serial]
    process := some (delivered p file rest) }

theorem Waits.found (waits : Waits config m p (file :: rest)) :
    m.disk.visible.get file.name = some (contents m.log file) :=
  OrderedMap.get_eq_some.mpr (waits.readable file List.mem_cons_self)

theorem Waits.wellFormed (waits : Waits config m p (file :: rest)) : file.WellFormed m.log :=
  waits.running.stored.queue.wellFormed file
    (List.mem_append_left [] (waits.files_eq ▸ List.mem_cons_self))

theorem eraseP_name_cons (file : OutboxFile) (rest : List OutboxFile) :
    (file :: rest).eraseP (fun pending => pending.name = file.name) = rest :=
  List.eraseP_cons_of_pos (decide_eq_true rfl)

theorem find?_name_cons (file : OutboxFile) (rest : List OutboxFile) :
    (file :: rest).find? (fun pending => pending.name = file.name) = some file :=
  List.find?_cons_of_pos (decide_eq_true rfl)

/-- None of the six operations on the first file is refused. -/
theorem Waits.run_deliveries (encode : Event → Option Bytes)
    (waits : Waits config m p (file :: rest)) :
    Runs.run (step encode config) m (deliveries file) = some (afterDelivery m p file rest) := by
  have found := waits.found
  have wellFormed := waits.wellFormed
  have short : ¬(axiomMaxBatchBytes < file.bytes ∨
      axiomMaxBatchBytes < (contents m.log file).content.length) := by
    rw [wellFormed.content_length, or_self]
    exact Nat.not_lt.mpr wellFormed.bytes_le
  have full : FullyAcknowledged file (some { ingested := file.events, failed := 0 }) :=
    ⟨_, rfl, rfl, rfl⟩
  have erased := eraseP_name_cons file rest
  have first := find?_name_cons file rest
  simp only [deliveries, Runs.run_cons, Runs.run_nil, step, workStep, waits.process,
    waits.persister, waits.worker, waits.files_eq, List.head?_cons, Option.bind_some, found,
    if_neg short, if_pos full, if_true, first, erased]
  rfl

/-- What holds of a running process does not depend on the record of it. -/
theorem Running.record {extra : List OutboxFile} (running : Running config m p extra)
    (process : Option Process) : Running config { m with process := process } p extra where
  stored := running.stored
  extra_eq := running.extra_eq
  bytes := running.bytes
  job := fun job isJob => (running.job job isJob).frame rfl rfl rfl
  stage := running.stage
  worker := running.worker.mono (List.prefix_refl _) (List.Subset.refl _) (fun _ _ gone => gone)
    fun _ _ gone => gone
  acked := running.acked

/-- The invariant of the outbox goes along with the delivery. -/
theorem Waits.running_delivered (waits : Waits config m p (file :: rest)) :
    Running config (afterDelivery m p file rest) (delivered p file rest) [] := by
  have files := waits.files_eq
  have unacked := waits.running.worker
  rw [waits.worker] at unacked
  have whole := waits.running.read (files ▸ List.mem_cons_self) waits.found
  have posting := waits.running.withWorker (.posting file (contents m.log file).content 0)
    ⟨unacked, ⟨rest, files⟩, whole⟩
  have forgetting := ((posting.acknowledge rfl).unlink rfl).commit rfl
  have first : p.state.files.find? (fun pending => pending.name = file.name) = some file := by
    rw [files]
    exact find?_name_cons file rest
  have forgotten := (forgetting.forget rfl waits.persister first).record
    (some (delivered p file rest))
  have left : p.state.files.eraseP (fun pending => pending.name = file.name) = rest := by
    rw [files]
    exact eraseP_name_cons file rest
  dsimp only at forgotten
  rw [left, waits.persister] at forgotten
  exact forgotten

/-- Delivering the first file leaves a process that waits with the others. -/
theorem Waits.deliver (waits : Waits config m p (file :: rest)) :
    Waits config (afterDelivery m p file rest) (delivered p file rest) rest where
  process := rfl
  persister := rfl
  worker := rfl
  files_eq := rfl
  running := waits.running_delivered
  readable := by
    intro other member
    have found := waits.readable other (List.mem_cons_of_mem file member)
    change (other.name, contents m.log other) ∈ (m.disk.record (.remove file.name)).sync.visible
    rw [Disk.visible_sync, Disk.visible_record]
    refine Change.mem_apply_of_untouched found fun touched => ?_
    -- another file of the queue has another name
    have queue := waits.running.stored.queue
    rw [List.append_nil, waits.files_eq] at queue
    have same := queue.eq_of_name (List.mem_cons_of_mem file member) List.mem_cons_self
      (List.mem_singleton.mp touched)
    exact (List.nodup_cons.mp queue.nodup).1 (same ▸ member)

end Delivery

/-- The process waits without a file, and has had these batches acknowledged. -/
structure Drained (config : OutboxConfig) (m before : Machine) (p : Process)
    (files : List OutboxFile) : Prop where
  waits : Waits config m p []
  accepted : m.accepted = before.accepted
  acked : m.acked = before.acked ++ files.map OutboxFile.serial

/-- All files are delivered, one after the other. -/
theorem Waits.drain (encode : Event → Option Bytes) {m : Machine} {p : Process}
    {files : List OutboxFile} (waits : Waits config m p files) :
    ∃ final after, Runs.run (step encode config) m (files.flatMap deliveries) = some final ∧
      Drained config final m after files ∧
      after.acked = p.acked ++ files.map OutboxFile.serial := by
  induction files generalizing m p with
  | nil => exact ⟨m, p, rfl, ⟨waits, rfl, (List.append_nil _).symm⟩, (List.append_nil _).symm⟩
  | cons file rest ih =>
      obtain ⟨final, after, executed, drained, acked⟩ := ih waits.deliver
      refine ⟨final, after, ?_, ⟨drained.waits, drained.accepted, ?_⟩, ?_⟩
      · rw [List.flatMap_cons, Runs.run_append, waits.run_deliveries encode]
        exact executed
      · rw [drained.acked, List.map_cons]
        exact List.append_assoc _ _ _
      · rw [acked, List.map_cons]
        exact List.append_assoc _ _ _

/-- Without a file in the queue nothing is due, and no crash brings a batch file back. -/
theorem Drained.nothing_left {m before : Machine} {p : Process} {files : List OutboxFile}
    (drained : Drained config m before p files) :
    (∀ serial ∈ before.accepted, serial ∈ m.acked) ∧
      m.disk.Only fun entry => ¬IsBatchName entry.1 := by
  have stored := drained.waits.running.stored
  rw [List.append_nil, drained.waits.files_eq] at stored
  constructor
  · intro serial isAccepted
    by_contra notAcked
    obtain ⟨file, member, _⟩ := stored.found serial (drained.accepted ▸ isAccepted) notAcked
    exact absurd member List.not_mem_nil
  · refine stored.only.imp fun entry covers isBatch => ?_
    obtain ⟨file, member, _⟩ := covers isBatch
    exact absurd member List.not_mem_nil

/-- A start that succeeds leaves a process that waits with what it found. -/
theorem Stored.waits_start {m : Machine} {files : List OutboxFile}
    (stored : Stored config m.disk m.log m.accepted m.acked files)
    (someFiles : 0 < config.maxFiles) (someBytes : 0 < config.maxBytes)
    {listing : List (Name × File)}
    (listed : listing.Perm (Outbox.withLock m.disk).visible.entries) (removed : Name → Bool) :
    ∃ state p, openFiles config listing = .ok state ∧ p.acked = [] ∧
      Waits config (start config m listing removed true) p state.files ∧
      (start config m listing removed true).accepted = m.accepted ∧
      (start config m listing removed true).acked = m.acked := by
  obtain ⟨state, opened, sublist, bytes, members⟩ :=
    stored.withLock.opens someFiles someBytes listed
  refine ⟨state,
    { state := state, persister := .idle, worker := .idle, poisoned := false,
      stopping := false, acked := [] }, opened, rfl, ?_, ?_⟩
  · have recovered := stored.withLock.recovered listed sublist members removed
    unfold Outbox.start
    rw [opened]
    refine ⟨rfl, rfl, rfl, rfl, ⟨?_, Or.inl rfl, bytes, nofun, trivial, ?_, nofun⟩, ?_⟩
    · rw [List.append_nil]
      exact recovered
    · exact fun _ _ => List.not_mem_nil
    · intro file member
      obtain ⟨within, found⟩ := (members file).mp member
      exact mem_removeTemps (stored.queue.wellFormed file within).isBatchName
        (listed.subset found)
  · unfold Outbox.start
    rw [opened]
    exact ⟨rfl, rfl⟩

/--
From every reachable state, a process that exits and starts again delivers all
files that it finds, in order, as long as no operation fails: then every batch
that was ever accepted is acknowledged, and the directory has no batch file, not
even after a crash.
-/
theorem outbox_drains {Event : Type} (encode : Event → Option Bytes)
    (someFiles : 0 < config.maxFiles) (someBytes : 0 < config.maxBytes)
    {actions : List (Action Event)} {m : Machine}
    (reached : Runs.run (step encode config) Machine.new actions = some m)
    {listing : List (Name × File)} (listed : listing.Perm (withLock m.disk).visible.entries)
    (removed : Name → Bool) :
    ∃ state final p, openFiles config listing = .ok state ∧
      Runs.run (step encode config) m
        (.exit :: .start listing removed true :: state.files.flatMap deliveries) = some final ∧
      final.process = some p ∧ p.state.files = [] ∧ p.worker = .idle ∧
      p.acked = state.files.map OutboxFile.serial ∧
      (∀ serial ∈ m.accepted, serial ∈ final.acked) ∧
      final.disk.Only fun entry => ¬IsBatchName entry.1 := by
  have sound : Sound config m :=
    Runs.run_preserves (Sound config)
      (fun _ _ _ sound stepped => sound.step someFiles someBytes stepped) sound_new reached
  obtain ⟨files, stored⟩ := sound.stored
  obtain ⟨state, p, opened, fresh, waits, accepted, _⟩ :=
    Stored.waits_start (m := { m with process := none }) stored someFiles someBytes listed removed
  obtain ⟨final, after, executed, drained, acked⟩ := waits.drain encode
  obtain ⟨due, empty⟩ := drained.nothing_left
  rw [accepted] at due
  refine ⟨state, final, after, opened, ?_, drained.waits.process, drained.waits.files_eq,
    drained.waits.worker, ?_, due, empty⟩
  · have started : step encode config { m with process := none } (.start listing removed true) =
        some (start config { m with process := none } listing removed true) :=
      if_pos ⟨rfl, listed⟩
    change (step encode config { m with process := none } (.start listing removed true)).bind _ =
      some final
    rw [started]
    exact executed
  · rw [acked, fresh]
    rfl

/-- After the crash of the sample both batches are delivered, the first one a second time. -/
theorem outbox_drains_sample :
    ∃ m final, Runs.run (step (fun byte => some [byte]) sampleConfig) Machine.new sampleActions =
        some m ∧ m.accepted = [0, 1] ∧
      (∃ more, Runs.run (step (fun byte => some [byte]) sampleConfig) m more = some final) ∧
      (∀ serial ∈ m.accepted, serial ∈ final.acked) ∧
      final.disk.Only fun entry => ¬IsBatchName entry.1 := by
  have outcome : (Runs.run (step (fun byte => some [byte]) sampleConfig) Machine.new
      sampleActions).map Machine.accepted = some [0, 1] := by decide +kernel
  obtain ⟨m, reached, accepted⟩ := Option.map_eq_some_iff.mp outcome
  obtain ⟨_, final, _, _, executed, _, _, _, _, due, empty⟩ :=
    outbox_drains (fun byte => some [byte]) (by decide) (by decide) reached
      (List.Perm.refl (withLock m.disk).visible.entries) fun _ => false
  exact ⟨m, final, reached, accepted, ⟨_, executed⟩, due, empty⟩

end MarketBenchmark.Outbox
