import MarketBenchmark.Outbox.Invariant
import MarketBenchmark.Outbox.Moves

/-!
# The actions of a process keep the invariant

An admitted batch continues the queue, a renamed file is the only one that can
be on the disk without being queued, and the worker takes away the first file
once its post was acknowledged and its unlinking synchronised.
-/

namespace MarketBenchmark.Outbox

open Foundation

variable {config : OutboxConfig}

/-! ## What is admitted -/

section Admitted

variable {Event : Type} {encode : Event → Option Bytes}

theorem length_encodeEvents {body : Bytes} {events : List Event} {encoded : Bytes}
    (fits : body.length ≤ axiomMaxBatchBytes)
    (found : encodeEvents encode body events = some encoded) :
    encoded.length ≤ axiomMaxBatchBytes := by
  induction events generalizing body with
  | nil =>
      cases found
      exact fits
  | cons event rest ih =>
      unfold encodeEvents at found
      cases line : encode event with
      | none => simp [line] at found
      | some bytes =>
          simp only [line] at found
          split at found
          · cases found
          · refine ih ?_ found
            simp only [List.length_append, List.length_singleton]
            omega

theorem batchOf_spec {events : List Event} {batch : Batch} (nonempty : events ≠ [])
    (found : batchOf encode events = some batch) :
    0 < batch.events ∧ batch.events ≤ axiomMaxEventsPerBatch ∧
      batch.body.length ≤ axiomMaxBatchBytes := by
  unfold batchOf at found
  split at found
  · cases found
  next few =>
    obtain ⟨body, encoded, rfl⟩ := Option.map_eq_some_iff.mp found
    exact ⟨List.length_pos_iff.mpr nonempty, Nat.not_lt.mp few,
      length_encodeEvents (Nat.zero_le _) encoded⟩

end Admitted

/-- The next ordering key is above those of the queue. -/
theorem nextOrder_spec {state : OutboxState} {log : List Batch} {now order : Nat}
    (queue : Queue config log state.files) (found : nextOrder state now = some order) :
    order < 2 ^ 64 ∧ ∀ file ∈ state.files, file.order < order := by
  unfold nextOrder at found
  have fits : now % 2 ^ 64 < 2 ^ 64 := Nat.mod_lt now (by decide)
  cases last : state.files.getLast? with
  | none =>
      simp only [last, Option.some.injEq] at found
      rw [List.getLast?_eq_none_iff] at last
      exact ⟨found ▸ fits, by simp [last]⟩
  | some newest =>
      simp only [last] at found
      split at found
      next room =>
        cases found
        constructor
        · exact max_lt fits room
        · intro file member
          obtain ⟨front, split⟩ := List.getLast?_eq_some_iff.mp last
          have below : file.order ≤ newest.order := by
            rw [split] at member
            rcases List.mem_append.mp member with before | here
            · have ordered := queue.ordered
              rw [split] at ordered
              exact ((List.pairwise_append.mp ordered).2.2 file before newest
                List.mem_cons_self).1.le
            · rw [List.mem_singleton.mp here]
          exact lt_of_lt_of_le (Nat.lt_succ_of_le below) (le_max_right _ _)
      · cases found

/-- An admitted batch continues the queue. -/
theorem admitBatch_queue {state : OutboxState} {log : List Batch} {batch : Batch} {now : Nat}
    {id : List Char} {job : Job} (queue : Queue config log state.files)
    (bytes : state.bytes = totalBytes state.files) (nonempty : 0 < batch.events)
    (few : batch.events ≤ axiomMaxEventsPerBatch) (short : batch.body.length ≤ axiomMaxBatchBytes)
    (found : admitBatch config state batch now id log.length = some job) :
    Queue config (log ++ [batch]) (state.files ++ [job.file]) ∧
      job.nextBytes = totalBytes (state.files ++ [job.file]) ∧ job.file.serial = log.length ∧
      job.body = batch.body ∧ job.file.events = batch.events ∧ IsTempName job.temp := by
  unfold admitBatch at found
  dsimp only at found
  split at found
  · cases found
  next room =>
    obtain ⟨order, next, rfl⟩ := Option.map_eq_some_iff.mp found
    obtain ⟨orderFits, newest⟩ := nextOrder_spec queue next
    have total : totalBytes (state.files ++
        [{ name := batchName order id batch.events, order := order, bytes := batch.body.length,
           events := batch.events, serial := log.length }]) =
        state.bytes + batch.body.length := by
      rw [totalBytes_append, ← bytes]
      rfl
    refine ⟨?_, total.symm, rfl, rfl, rfl, isTempName_tempName id⟩
    constructor
    · refine List.pairwise_append.mpr ⟨queue.ordered, List.pairwise_singleton _ _, ?_⟩
      intro earlier member later here
      rw [List.mem_singleton.mp here]
      exact ⟨newest earlier member, (queue.wellFormed earlier member).serial_lt⟩
    · intro file member
      rcases List.mem_append.mp member with before | here
      · exact (queue.wellFormed file before).log_append batch
      · rw [List.mem_singleton.mp here]
        exact
          { named := ⟨id, rfl⟩
            order_lt := orderFits
            events_pos := nonempty
            events_le := few
            bytes_le := short
            batch := ⟨batch, List.getElem?_concat_length, rfl, rfl⟩ }
    · simp only [List.length_append, List.length_singleton]
      omega
    · rw [total]
      omega
    · rw [total]
      omega

/-! ## Actions of the publishing task -/

namespace Running

variable {m : Machine} {p : Process} {extra : List OutboxFile}

theorem sound (running : Running config m p extra) :
    Sound config { m with process := some p } := by
  refine ⟨extra, ?_⟩
  constructor
  · exact running.stored
  · exact running.extra_eq
  · exact running.bytes
  · intro job isJob
    exact (running.job job isJob).frame rfl rfl rfl
  · exact running.stage
  · exact running.worker.mono (List.prefix_refl _) (List.Subset.refl _) (fun _ _ gone => gone)
      fun _ _ gone => gone
  · exact running.acked

/-- While a job is at hand, only its own file can be renamed but not queued. -/
theorem extra_eq_renamed (running : Running config m p extra) {job : Job}
    (current : p.persister.job = some job) : extra = p.persister.renamed := by
  rcases running.extra_eq with same | ⟨_, none⟩
  · exact same
  · simp [current] at none

/-- The publishing task goes on, and the disk may change. -/
theorem restage (running : Running config m p extra) {disk : Disk Name File}
    {persister : Persister}
    (stored : Stored config disk m.log m.accepted m.acked (p.state.files ++ extra))
    (extra_eq : extra = persister.renamed ∨ p.poisoned = true ∧ persister.job = none)
    (job : persister.job = p.persister.job ∨ persister.job = none)
    (stage : StageHolds disk m.log persister)
    (worker : WorkerHolds { m with disk := disk } p.acked p.state.files p.worker) :
    Running config { m with disk := disk } { p with persister := persister } extra where
  stored := stored
  extra_eq := extra_eq
  bytes := running.bytes
  job := fun current isCurrent => by
    rcases job with same | none
    · exact (running.job current (same ▸ isCurrent)).frame rfl rfl rfl
    · rw [none] at isCurrent
      cases isCurrent
  stage := stage
  worker := worker
  acked := running.acked

/-- The publishing task changes its temporary file. -/
theorem changeTemp (running : Running config m p extra) {before : Persister} {job : Job}
    (current : p.persister = before) (isJob : before.job = some job) (queued : before.renamed = [])
    (change : Change Name File) (touched : change.touched = [job.temp]) (persister : Persister)
    (next : persister.job = some job ∨ persister.job = none) (stillQueued : persister.renamed = [])
    (stage : StageHolds (m.disk.record change) m.log persister) :
    Running config { m with disk := m.disk.record change } { p with persister := persister }
      extra := by
  subst current
  have temp := (running.job job isJob).temp
  have others : ∀ name ∈ change.touched, ¬IsBatchName name := by
    intro name member
    rw [touched, List.mem_singleton] at member
    exact member ▸ not_isBatchName_of_isTempName temp
  have written : ∀ entry, change.written = some entry → ¬IsBatchName entry.1 :=
    fun entry isWritten => others _ (Change.mem_touched_of_written isWritten)
  refine running.restage (running.stored.record_other others written) ?_ ?_ stage ?_
  · rw [running.extra_eq_renamed isJob, queued, stillQueued]
    exact Or.inl rfl
  · rw [isJob]
    exact next
  · refine running.worker.record fun entry isWritten file member same => ?_
    exact written entry isWritten (same ▸ (running.stored.queue.wellFormed file
      (List.mem_append_left _ member)).isBatchName)

/-- The publishing task goes on without a change of the disk. -/
theorem goOn (running : Running config m p extra) {before : Persister} {job : Job}
    (current : p.persister = before) (isJob : before.job = some job) (queued : before.renamed = [])
    (persister : Persister) (next : persister.job = some job ∨ persister.job = none)
    (stillQueued : persister.renamed = []) (stage : StageHolds m.disk m.log persister) :
    Running config m { p with persister := persister } extra := by
  subst current
  refine running.restage running.stored ?_ ?_ stage running.worker
  · rw [running.extra_eq_renamed isJob, queued, stillQueued]
    exact Or.inl rfl
  · rw [isJob]
    exact next

/-- An operation on the temporary file failed. -/
theorem abandon (running : Running config m p extra) {before : Persister} {job : Job}
    (current : p.persister = before) (isJob : before.job = some job)
    (queued : before.renamed = []) :
    Running config m { p with persister := .abandoning job } extra :=
  running.goOn current isJob queued (.abandoning job) (Or.inl rfl) rfl trivial

/-- The temporary file gets the name of the batch. -/
theorem rename (running : Running config m p extra) {job : Job}
    (current : p.persister = .renaming job) :
    Running config
      { m with disk := m.disk.record (.move job.temp job.file.name (contents m.log job.file)) }
      { p with persister := .syncingDirectory job } [job.file] := by
  have isJob : p.persister.job = some job := by rw [current]; rfl
  have holds := running.job job isJob
  have none : extra = [] := by rw [running.extra_eq_renamed isJob, current]; rfl
  have stored := running.stored
  rw [none, List.append_nil] at stored
  constructor
  · refine stored.extend holds.queue
      (fun isAccepted => absurd (holds.newest _ (Or.inl isAccepted)) (Nat.lt_irrefl _)) ?_ ?_
    · rintro entry isWritten
      exact (Option.some.inj isWritten).symm
    · intro old member touched
      rcases List.mem_pair.mp touched with isTemp | isFinal
      · exact not_isBatchName_of_isTempName holds.temp
          (isTemp ▸ (stored.queue.wellFormed old member).isBatchName)
      · exact holds.name_ne member isFinal
  · exact Or.inl rfl
  · exact running.bytes
  · rintro other isOther
    cases isOther
    exact holds.frame rfl rfl rfl
  · show _ ∈ (m.disk.record _).visible
    rw [Disk.visible_record]
    exact Change.mem_apply_of_written rfl
  · refine running.worker.record fun entry isWritten file member same => ?_
    cases isWritten
    exact holds.name_ne member same.symm
  · exact running.acked

/-- After the directory was synchronised the batch is there for good. -/
theorem syncDirectory (running : Running config m p extra) {job : Job}
    (current : p.persister = .syncingDirectory job) :
    Running config { m with disk := m.disk.sync } { p with persister := .pushing job } extra := by
  have isJob : p.persister.job = some job := by rw [current]; rfl
  have stage := running.stage
  rw [current] at stage
  refine running.restage running.stored.sync ?_ (Or.inl isJob.symm) (Disk.keeps_sync stage)
    running.worker.sync
  rw [running.extra_eq_renamed isJob, current]
  exact Or.inl rfl

/-- A failed synchronisation leaves the renamed file behind and poisons the outbox. -/
theorem poison (running : Running config m p extra) :
    Running config m { p with persister := .idle, poisoned := true } extra where
  stored := running.stored
  extra_eq := Or.inr ⟨rfl, rfl⟩
  bytes := running.bytes
  job := nofun
  stage := trivial
  worker := running.worker
  acked := running.acked

/-- The batch enters the queue, and persisting it returns true. -/
theorem push (running : Running config m p extra) {job : Job}
    (current : p.persister = .pushing job) :
    Running config { m with accepted := m.accepted ++ [job.file.serial] }
      { p with
        persister := .idle
        state := { files := p.state.files ++ [job.file], bytes := job.nextBytes } } [] := by
  have isJob : p.persister.job = some job := by rw [current]; rfl
  have holds := running.job job isJob
  have stage := running.stage
  rw [current] at stage
  have one : extra = [job.file] := by rw [running.extra_eq_renamed isJob, current]; rfl
  have stored := running.stored
  rw [one] at stored
  constructor
  · rw [List.append_nil]
    exact stored.accept stage
  · exact Or.inl rfl
  · exact holds.nextBytes
  · exact nofun
  · trivial
  · refine (running.worker.push fun isAcked => ?_).mono (List.prefix_refl _) (List.Subset.refl _)
      (fun _ _ gone => gone) fun _ _ gone => gone
    exact absurd (holds.newest _ (Or.inr (running.acked _ isAcked))) (Nat.lt_irrefl _)
  · exact running.acked

/-- A new job, whose batch is logged. -/
theorem create (running : Running config m p extra) (idle : p.persister = .idle)
    (notPoisoned : p.poisoned = false) {batch : Batch} {now : Nat} {id : List Char} {job : Job}
    (nonempty : 0 < batch.events) (few : batch.events ≤ axiomMaxEventsPerBatch)
    (short : batch.body.length ≤ axiomMaxBatchBytes)
    (found : admitBatch config p.state batch now id m.log.length = some job) :
    Running config { m with log := m.log ++ [batch] } { p with persister := .creating job }
      extra := by
  have none : extra = [] := by
    rcases running.extra_eq with same | ⟨poisoned, _⟩
    · rw [same, idle]
      rfl
    · rw [notPoisoned] at poisoned
      cases poisoned
  have stored := running.stored
  rw [none, List.append_nil] at stored
  obtain ⟨queue, nextBytes, serial, body, events, temp⟩ :=
    admitBatch_queue stored.queue running.bytes nonempty few short found
  constructor
  · exact running.stored.log_append batch
  · exact Or.inl none
  · exact running.bytes
  · rintro other isOther
    cases isOther
    refine ⟨notPoisoned, queue, nextBytes, ?_, temp, ?_⟩
    · rw [serial, body, events]
      exact List.getElem?_concat_length
    · rw [serial]
      exact stored.logged
  · trivial
  · exact running.worker.mono (List.prefix_append _ _) (List.Subset.refl _)
      (fun _ _ gone => gone) fun _ _ gone => gone
  · exact running.acked

/-! ## Actions of the worker -/

theorem withWorker (running : Running config m p extra) (worker : Worker)
    (holds : WorkerHolds m p.acked p.state.files worker) :
    Running config m { p with worker := worker } extra :=
  { running with worker := holds }

theorem unlessStopping (running : Running config m p extra) (worker : Worker)
    (holds : WorkerHolds m p.acked p.state.files worker) :
    Running config m (p.unlessStopping worker) extra := by
  refine running.withWorker _ ?_
  split
  · trivial
  · exact holds

/-- What the worker reads is the whole batch. -/
theorem read (running : Running config m p extra) {file : OutboxFile}
    (member : file ∈ p.state.files)
    {stored : File} (found : m.disk.visible.get file.name = some stored) :
    m.log[file.serial]? = some { body := stored.content, events := file.events } := by
  have within := List.mem_append_left extra member
  have wellFormed := running.stored.queue.wellFormed file within
  obtain ⟨other, covered, name, same⟩ := running.stored.only.visible _
    (OrderedMap.get_eq_some.mp found) wellFormed.isBatchName
  rw [running.stored.queue.eq_of_name covered within name] at same
  obtain ⟨batch, logged, _, events⟩ := wellFormed.batch
  subst same
  simp [contents, logged, ← events]

/-- A full acknowledgement. -/
theorem acknowledge (running : Running config m p extra) {file : OutboxFile} {body : Bytes}
    {attempt : Nat} (current : p.worker = .posting file body attempt) :
    Running config { m with acked := m.acked ++ [file.serial] }
      { p with worker := .unlinking file, acked := p.acked ++ [file.serial] } extra := by
  have worker := running.worker
  rw [current] at worker
  obtain ⟨unacked, ⟨rest, split⟩, logged⟩ := worker
  have ordered := running.stored.queue.ordered
  rw [split, List.cons_append, List.pairwise_cons] at ordered
  have member : file ∈ p.state.files := split ▸ List.mem_cons_self
  constructor
  · exact running.stored.acknowledge (List.getElem?_eq_some_iff.mp logged).1
  · exact running.extra_eq
  · exact running.bytes
  · intro job isJob
    have holds := running.job job isJob
    refine { holds with newest := ?_ }
    rintro serial (isAccepted | isAcked)
    · exact holds.newest serial (Or.inl isAccepted)
    · rcases List.mem_append.mp isAcked with before | here
      · exact holds.newest serial (Or.inr before)
      · rw [List.mem_singleton.mp here]
        exact ((List.pairwise_append.mp holds.queue.ordered).2.2 file member job.file
          List.mem_cons_self).2
  · exact running.stage
  · refine ⟨List.mem_append_right _ List.mem_cons_self, rest, split, fun other later isAcked => ?_⟩
    rcases List.mem_append.mp isAcked with before | here
    · exact unacked other (split ▸ List.mem_cons_of_mem file later) before
    · exact absurd (ordered.1 other (List.mem_append_left _ later)).2
        (List.mem_singleton.mp here ▸ Nat.lt_irrefl _)
  · intro serial isAcked
    rcases List.mem_append.mp isAcked with before | here
    · exact List.mem_append_left _ (running.acked serial before)
    · exact List.mem_append_right _ here

/-- The file of an acknowledged batch is unlinked. -/
theorem unlink (running : Running config m p extra) {file : OutboxFile}
    (current : p.worker = .unlinking file) :
    Running config { m with disk := m.disk.record (.remove file.name) }
      { p with worker := .committing file } extra := by
  have worker := running.worker
  rw [current] at worker
  obtain ⟨isAcked, rest, split, unacked⟩ := worker
  have member : file ∈ p.state.files := split ▸ List.mem_cons_self
  have queue := running.stored.queue
  constructor
  · refine running.stored.record nofun fun other within _ notAcked touched => ?_
    rw [queue.eq_of_name within (List.mem_append_left _ member) (List.mem_singleton.mp touched)]
      at notAcked
    exact notAcked isAcked
  · exact running.extra_eq
  · exact running.bytes
  · intro job isJob
    exact (running.job job isJob).frame rfl rfl rfl
  · refine running.stage.record fun job isJob => ⟨fun touched => ?_, fun touched => ?_⟩
    · have isBatch := (queue.wellFormed file (List.mem_append_left _ member)).isBatchName
      rw [← List.mem_singleton.mp touched] at isBatch
      exact not_isBatchName_of_isTempName (running.job job isJob).temp isBatch
    · exact (running.job job isJob).name_ne member (List.mem_singleton.mp touched).symm
  · refine ⟨⟨isAcked, rest, split, unacked⟩, fun entry found => ?_⟩
    rw [Disk.visible_record] at found
    exact (OrderedMap.mem_erase.mp found).2
  · exact running.acked

/-- An earlier attempt unlinked the file. -/
theorem unlinked (running : Running config m p extra) {file : OutboxFile}
    (current : p.worker = .unlinking file) (gone : m.disk.visible.get file.name = none) :
    Running config m { p with worker := .committing file } extra := by
  have worker := running.worker
  rw [current] at worker
  refine running.withWorker _ ⟨worker, fun entry found same => ?_⟩
  rw [OrderedMap.get_eq_some.mpr (show (file.name, entry.2) ∈ m.disk.visible from same ▸ found)]
    at gone
  cases gone

theorem commit (running : Running config m p extra) {file : OutboxFile}
    (current : p.worker = .committing file) :
    Running config { m with disk := m.disk.sync } { p with worker := .forgetting file } extra := by
  have worker := running.worker
  rw [current] at worker
  constructor
  · exact running.stored.sync
  · exact running.extra_eq
  · exact running.bytes
  · intro job isJob
    exact (running.job job isJob).frame rfl rfl rfl
  · exact running.stage.sync
  · exact ⟨worker.1, Disk.only_sync worker.2⟩
  · exact running.acked

/-- The batch leaves the queue. -/
theorem forget (running : Running config m p extra) {file removed : OutboxFile}
    (current : p.worker = .forgetting file) (idle : p.persister = .idle)
    (found : p.state.files.find? (fun pending => pending.name = file.name) = some removed) :
    Running config m
      { p with
        worker := .idle
        state :=
          { files := p.state.files.eraseP fun pending => pending.name = file.name
            bytes := p.state.bytes - removed.bytes } } extra := by
  have worker := running.worker
  rw [current] at worker
  obtain ⟨⟨isAcked, rest, split, unacked⟩, gone⟩ := worker
  have stored := running.stored
  have bytes := running.bytes
  rw [split] at stored found bytes
  simp only [List.find?_cons, decide_true, Option.some.injEq] at found
  subst found
  have left : p.state.files.eraseP (fun pending => pending.name = file.name) = rest := by
    rw [split]
    exact List.eraseP_cons_of_pos (decide_eq_true rfl)
  rw [left]
  constructor
  · exact stored.forget isAcked gone
  · exact running.extra_eq
  · show p.state.bytes - file.bytes = totalBytes rest
    rw [bytes]
    exact Nat.add_sub_cancel_left _ _
  · intro job isJob
    rw [show p.persister.job = none by rw [idle]; rfl] at isJob
    cases isJob
  · exact running.stage
  · exact unacked
  · exact running.acked

end Running

/-! ## Every action -/

section Steps

variable {Event : Type} {encode : Event → Option Bytes} {m next : Machine} {p : Process}
  {extra : List OutboxFile}

theorem sound_submit (running : Running config m p extra) (current : m.process = some p)
    (idle : p.persister = .idle) (events : List Event) (now : Nat) (id : List Char) :
    Sound config (submit encode config m p events now id) := by
  have same : Sound config m := by
    unfold Sound
    rw [current]
    exact ⟨extra, running⟩
  unfold submit
  split
  · exact same
  next writable =>
    obtain ⟨notPoisoned, nonempty⟩ := not_or.mp writable
    split
    · exact same
    next batch encoded =>
      obtain ⟨positive, few, short⟩ := batchOf_spec nonempty encoded
      split
      · exact same
      next job admitted =>
        exact (running.create idle (Bool.eq_false_iff.mpr notPoisoned) positive few short
          admitted).sound

/-- The operations on the files and on the queue keep the outbox sound. -/
theorem sound_operates (running : Running config m p extra) {action : PersistAction Event}
    (operates : Operates m p action next) : Sound config next := by
  have holds := running.stage
  cases operates with
  | @created job stage _ =>
      exact (running.changeTemp stage rfl rfl _ rfl (.writing job) (Or.inl rfl) rfl trivial).sound
  | uncreated _ stage => exact (running.abandon stage rfl rfl).sound
  | @written job _ stage =>
      refine (running.changeTemp stage rfl rfl _ rfl (.syncing job) (Or.inl rfl) rfl ?_).sound
      show _ ∈ (m.disk.record _).visible
      rw [Disk.visible_record]
      exact Change.mem_apply_of_written rfl
  | @torn job _ stage =>
      exact (running.changeTemp stage rfl rfl _ rfl (.abandoning job) (Or.inl rfl) rfl
        trivial).sound
  | @synced job file stage found =>
      rw [stage] at holds
      have same := OrderedMap.value_unique (OrderedMap.get_eq_some.mp found) holds
      have isJob : p.persister.job = some job := by rw [stage]; rfl
      refine (running.changeTemp stage rfl rfl _ rfl (.renaming job) (Or.inl rfl) rfl ?_).sound
      show _ ∈ (m.disk.record _).visible
      rw [Disk.visible_record]
      refine Change.mem_apply_of_written ?_
      rw [(running.job job isJob).contents_eq, same]
      rfl
  | unsynced _ stage => exact (running.abandon stage rfl rfl).sound
  | @removed job stage =>
      exact (running.changeTemp stage rfl rfl (.remove job.temp) rfl .idle (Or.inr rfl) rfl
        trivial).sound
  | unremoved stage =>
      exact (running.goOn stage rfl rfl .idle (Or.inr rfl) rfl trivial).sound
  | renamed stage found =>
      rw [stage] at holds
      rw [OrderedMap.value_unique (OrderedMap.get_eq_some.mp found) holds]
      exact (running.rename stage).sound
  | unrenamed _ stage => exact (running.abandon stage rfl rfl).sound
  | settled stage => exact (running.syncDirectory stage).sound
  | unsettled _ => exact running.poison.sound
  | pushed stage => exact (running.push stage).sound

theorem sound_persistStep (running : Running config m p extra) (current : m.process = some p)
    {action : PersistAction Event} (stepped : persistStep encode config m p action = some next) :
    Sound config next := by
  cases action with
  | submit events now id =>
      simp only [persistStep] at stepped
      split at stepped
      next stage =>
        cases stepped
        exact sound_submit running current stage events now id
      · cases stepped
  | _ => exact sound_operates running (operates_of_persistStep (by simp) stepped)

/-- The steps of the delivery loop keep the outbox sound. -/
theorem sound_delivers (running : Running config m p extra) {action : WorkAction}
    (delivers : Delivers m p action next) : Sound config next := by
  have holds := running.worker
  cases delivers with
  | waits worker _ =>
      rw [worker] at holds
      exact (running.unlessStopping .idle holds).sound
  | takes worker _ head =>
      rw [worker] at holds
      obtain ⟨rest, split⟩ := List.head?_eq_some_iff.mp head
      exact (running.withWorker (.reading _) ⟨holds, rest, split⟩).sound
  | reads worker found =>
      rw [worker] at holds
      obtain ⟨unacked, rest, files⟩ := holds
      have whole := running.read (files ▸ List.mem_cons_self) found
      exact (running.withWorker (.posting _ _ 0) ⟨unacked, ⟨rest, files⟩, whole⟩).sound
  | unread _ worker =>
      rw [worker] at holds
      exact (running.unlessStopping .idle holds.1).sound
  | acknowledged _ worker => exact (running.acknowledge worker).sound
  | @posted file body attempt _ worker =>
      rw [worker] at holds
      exact (running.withWorker (.posting file body (attempt + 1)) holds).sound
  | exhausted _ worker =>
      rw [worker] at holds
      exact (running.unlessStopping .idle holds.1).sound
  | stopped => exact (running.withWorker .stopped trivial).sound
  | unlinked worker => exact (running.unlink worker).sound
  | gone worker absent => exact (running.unlinked worker absent).sound
  | linked worker =>
      rw [worker] at holds
      exact (running.unlessStopping (.unlinking _) holds).sound
  | committed worker => exact (running.commit worker).sound
  | uncommitted worker =>
      rw [worker] at holds
      exact (running.unlessStopping (.unlinking _) holds.1).sound
  | forgets worker idle found => exact (running.forget worker idle found).sound
  | unknown worker _ =>
      rw [worker] at holds
      exact (running.unlessStopping (.unlinking _) holds.1).sound

end Steps

end MarketBenchmark.Outbox
