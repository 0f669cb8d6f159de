import MarketBenchmark.Outbox.Queue

/-!
# What holds between any two actions of the outbox

Every crash leaves a part of one sound queue in the directory: the files in
memory, and the one that was renamed but not yet queued, which may be there
for good when the synchronisation after its rename failed.  Accepted files stay
until their post was acknowledged.  The positions of the publishing task and of
the worker say what else holds at the moment.
-/

namespace MarketBenchmark.Outbox

open Foundation

variable {config : OutboxConfig}

/-- Every crash of the disk leaves a part of the queue, and all of what must be kept. -/
structure Stored (config : OutboxConfig) (disk : Disk Name File) (log : List Batch)
    (accepted acked : List Nat) (files : List OutboxFile) : Prop where
  queue : Queue config log files
  only : disk.Only (Queue.Covers log files)
  kept : ∀ file ∈ files, file.serial ∈ accepted → file.serial ∉ acked →
    disk.Keeps (file.name, contents log file)
  found : ∀ serial ∈ accepted, serial ∉ acked → ∃ file ∈ files, file.serial = serial
  logged : ∀ serial, serial ∈ accepted ∨ serial ∈ acked → serial < log.length

namespace Stored

variable {disk : Disk Name File} {log : List Batch} {accepted acked : List Nat}
  {files : List OutboxFile}

theorem record (stored : Stored config disk log accepted acked files) {change : Change Name File}
    (written : ∀ entry, change.written = some entry → Queue.Covers log files entry)
    (untouched : ∀ file ∈ files, file.serial ∈ accepted → file.serial ∉ acked →
      file.name ∉ change.touched) :
    Stored config (disk.record change) log accepted acked files :=
  { stored with
    only := stored.only.record written
    kept := fun file member isAccepted notAcked =>
      (stored.kept file member isAccepted notAcked).record
        (untouched file member isAccepted notAcked) }

/-- Changes of names that are no batch names do not matter. -/
theorem record_other (stored : Stored config disk log accepted acked files)
    {change : Change Name File} (others : ∀ name ∈ change.touched, ¬IsBatchName name)
    (written : ∀ entry, change.written = some entry → ¬IsBatchName entry.1) :
    Stored config (disk.record change) log accepted acked files :=
  stored.record (fun entry isWritten batch => absurd batch (written entry isWritten))
    fun file member _ _ touched =>
      others _ touched (stored.queue.wellFormed file member).isBatchName

theorem sync (stored : Stored config disk log accepted acked files) :
    Stored config disk.sync log accepted acked files :=
  { stored with
    only := Disk.only_sync stored.only.visible
    kept := fun file member isAccepted notAcked =>
      Disk.keeps_sync (stored.kept file member isAccepted notAcked).visible }

theorem crash (stored : Stored config disk log accepted acked files)
    {survived : List (Change Name File)} (sublist : survived.Sublist disk.pending)
    (torn : Name → Bytes) :
    Stored config (disk.crash survived (tear torn)) log accepted acked files :=
  { stored with
    only := stored.only.crash sublist fun entry covers batch => by
      obtain ⟨file, member, name, same⟩ := covers batch
      refine ⟨file, member, name, ?_⟩
      rw [← same]
      rfl
    kept := fun file member isAccepted notAcked =>
      (stored.kept file member isAccepted notAcked).crash sublist rfl }

/-- An acknowledged post leaves less to be kept. -/
theorem acknowledge (stored : Stored config disk log accepted acked files) {serial : Nat}
    (logged : serial < log.length) :
    Stored config disk log accepted (acked ++ [serial]) files where
  queue := stored.queue
  only := stored.only
  kept := fun file member isAccepted notAcked =>
    stored.kept file member isAccepted fun before =>
      notAcked (List.mem_append_left _ before)
  found := fun serial isAccepted notAcked =>
    stored.found serial isAccepted fun before => notAcked (List.mem_append_left _ before)
  logged := by
    rintro other (isAccepted | isAcked)
    · exact stored.logged other (Or.inl isAccepted)
    · rcases List.mem_append.mp isAcked with before | here
      · exact stored.logged other (Or.inr before)
      · rw [List.mem_singleton.mp here]
        exact logged

theorem log_append (stored : Stored config disk log accepted acked files) (batch : Batch) :
    Stored config disk (log ++ [batch]) accepted acked files where
  queue := stored.queue.log_append batch
  only := stored.only.imp fun entry covers isBatch => by
    obtain ⟨file, member, name, same⟩ := covers isBatch
    refine ⟨file, member, name, ?_⟩
    rw [(stored.queue.wellFormed file member).contents_append batch]
    exact same
  kept := fun file member isAccepted notAcked => by
    rw [(stored.queue.wellFormed file member).contents_append batch]
    exact stored.kept file member isAccepted notAcked
  found := stored.found
  logged := fun serial either => by
    rw [List.length_append]
    exact Nat.lt_add_right _ (stored.logged serial either)

/-- A new file at the end of the queue, which is not accepted yet. -/
theorem extend (stored : Stored config disk log accepted acked files) {file : OutboxFile}
    (queue : Queue config log (files ++ [file])) (fresh : file.serial ∉ accepted)
    {change : Change Name File}
    (written : ∀ entry, change.written = some entry → entry = (file.name, contents log file))
    (untouched : ∀ old ∈ files, old.name ∉ change.touched) :
    Stored config (disk.record change) log accepted acked (files ++ [file]) where
  queue := queue
  only := by
    refine (stored.only.imp fun entry covers batch => ?_).record fun entry isWritten batch => ?_
    · obtain ⟨old, member, found⟩ := covers batch
      exact ⟨old, List.mem_append_left _ member, found⟩
    · rw [written entry isWritten]
      exact ⟨file, List.mem_append_right _ List.mem_cons_self, rfl, rfl⟩
  kept := by
    intro old member isAccepted notAcked
    rcases List.mem_append.mp member with before | here
    · exact (stored.kept old before isAccepted notAcked).record (untouched old before)
    · rw [List.mem_singleton.mp here] at isAccepted
      exact absurd isAccepted fresh
  found := fun serial isAccepted notAcked => by
    obtain ⟨old, member, same⟩ := stored.found serial isAccepted notAcked
    exact ⟨old, List.mem_append_left _ member, same⟩
  logged := stored.logged

/-- The last file is accepted once every crash leaves it. -/
theorem accept {file : OutboxFile}
    (stored : Stored config disk log accepted acked (files ++ [file]))
    (keeps : disk.Keeps (file.name, contents log file)) :
    Stored config disk log (accepted ++ [file.serial]) acked (files ++ [file]) where
  queue := stored.queue
  only := stored.only
  kept := by
    intro other member isAccepted notAcked
    rcases List.mem_append.mp isAccepted with before | here
    · exact stored.kept other member before notAcked
    · have same := stored.queue.eq_of_serial member
        (List.mem_append_right _ List.mem_cons_self) (List.mem_singleton.mp here)
      rw [same]
      exact keeps
  found := by
    intro serial isAccepted notAcked
    rcases List.mem_append.mp isAccepted with before | here
    · exact stored.found serial before notAcked
    · exact ⟨file, List.mem_append_right _ List.mem_cons_self, (List.mem_singleton.mp here).symm⟩
  logged := by
    rintro serial (isAccepted | isAcked)
    · rcases List.mem_append.mp isAccepted with before | here
      · exact stored.logged serial (Or.inl before)
      · rw [List.mem_singleton.mp here]
        exact (stored.queue.wellFormed file
          (List.mem_append_right _ List.mem_cons_self)).serial_lt
    · exact stored.logged serial (Or.inr isAcked)

/-- The first file leaves the queue once it is acknowledged and no crash brings it back. -/
theorem forget {file : OutboxFile} {rest : List OutboxFile}
    (stored : Stored config disk log accepted acked (file :: rest)) (isAcked : file.serial ∈ acked)
    (gone : disk.Only fun entry => entry.1 ≠ file.name) :
    Stored config disk log accepted acked rest where
  queue := stored.queue.sublist (List.sublist_cons_self file rest)
  only := (stored.only.and gone).imp fun entry both batch => by
    obtain ⟨other, member, name, same⟩ := both.1 batch
    rcases List.mem_cons.mp member with rfl | later
    · exact absurd name.symm both.2
    · exact ⟨other, later, name, same⟩
  kept := fun other member => stored.kept other (List.mem_cons_of_mem file member)
  found := fun serial isAccepted notAcked => by
    obtain ⟨other, member, same⟩ := stored.found serial isAccepted notAcked
    rcases List.mem_cons.mp member with rfl | later
    · exact absurd (same ▸ isAcked) notAcked
    · exact ⟨other, later, same⟩
  logged := stored.logged

end Stored

/-! ## The publishing task -/

namespace Persister

/-- The job that `persist_body` is at. -/
def job : Persister → Option Job
  | .idle => none
  | .creating job => some job
  | .writing job => some job
  | .syncing job => some job
  | .abandoning job => some job
  | .renaming job => some job
  | .syncingDirectory job => some job
  | .pushing job => some job

/-- The file that was renamed but is not queued yet. -/
def renamed : Persister → List OutboxFile
  | .syncingDirectory job => [job.file]
  | .pushing job => [job.file]
  | _ => []

end Persister

/-- A job continues the queue with a batch that is newer than all others. -/
structure JobHolds (config : OutboxConfig) (m : Machine) (files : List OutboxFile)
    (poisoned : Bool) (job : Job) : Prop where
  notPoisoned : poisoned = false
  queue : Queue config m.log (files ++ [job.file])
  nextBytes : job.nextBytes = totalBytes (files ++ [job.file])
  batch : m.log[job.file.serial]? = some { body := job.body, events := job.file.events }
  temp : IsTempName job.temp
  newest : ∀ serial, serial ∈ m.accepted ∨ serial ∈ m.acked → serial < job.file.serial

theorem JobHolds.contents_eq {m : Machine} {files : List OutboxFile} {poisoned : Bool} {job : Job}
    (holds : JobHolds config m files poisoned job) :
    contents m.log job.file =
      { content := job.body, synced := true, serial := job.file.serial } := by
  unfold contents
  rw [holds.batch]
  rfl

theorem JobHolds.name_ne {m : Machine} {files : List OutboxFile} {poisoned : Bool} {job : Job}
    (holds : JobHolds config m files poisoned job) {file : OutboxFile} (member : file ∈ files) :
    file.name ≠ job.file.name := by
  intro same
  have equal := holds.queue.eq_of_name (List.mem_append_left _ member)
    (List.mem_append_right _ List.mem_cons_self) same
  have apart := (List.pairwise_append.mp holds.queue.ordered).2.2 file member job.file
    List.mem_cons_self
  exact absurd apart.1 (equal ▸ Nat.lt_irrefl _)

theorem JobHolds.frame {m next : Machine} {files : List OutboxFile} {poisoned : Bool} {job : Job}
    (holds : JobHolds config m files poisoned job) (log : next.log = m.log)
    (accepted : next.accepted = m.accepted) (acked : next.acked = m.acked) :
    JobHolds config next files poisoned job := by
  obtain ⟨notPoisoned, queue, nextBytes, batch, temp, newest⟩ := holds
  exact ⟨notPoisoned, log ▸ queue, nextBytes, log ▸ batch, temp, accepted ▸ acked ▸ newest⟩

/-- What the directory has at a stage of `persist_body`. -/
def StageHolds (disk : Disk Name File) (log : List Batch) : Persister → Prop
  | .syncing job =>
      (job.temp, { content := job.body, synced := false, serial := job.file.serial }) ∈ disk.visible
  | .renaming job => (job.temp, contents log job.file) ∈ disk.visible
  | .syncingDirectory job => (job.file.name, contents log job.file) ∈ disk.visible
  | .pushing job => disk.Keeps (job.file.name, contents log job.file)
  | _ => True

theorem StageHolds.record {disk : Disk Name File} {log : List Batch} {persister : Persister}
    (holds : StageHolds disk log persister) {change : Change Name File}
    (untouched : ∀ job, persister.job = some job →
      job.temp ∉ change.touched ∧ job.file.name ∉ change.touched) :
    StageHolds (disk.record change) log persister := by
  cases persister with
  | syncing job =>
      show _ ∈ (disk.record change).visible
      rw [Disk.visible_record]
      exact Change.mem_apply_of_untouched holds (untouched job rfl).1
  | «renaming» job =>
      show _ ∈ (disk.record change).visible
      rw [Disk.visible_record]
      exact Change.mem_apply_of_untouched holds (untouched job rfl).1
  | syncingDirectory job =>
      show _ ∈ (disk.record change).visible
      rw [Disk.visible_record]
      exact Change.mem_apply_of_untouched holds (untouched job rfl).2
  | pushing job => exact Disk.Keeps.record holds (untouched job rfl).2
  | _ => trivial

theorem StageHolds.sync {disk : Disk Name File} {log : List Batch} {persister : Persister}
    (holds : StageHolds disk log persister) : StageHolds disk.sync log persister := by
  cases persister with
  | pushing job => exact Disk.keeps_sync (Disk.Keeps.visible holds)
  | _ => exact holds

/-! ## The worker -/

/-- No post of the files was acknowledged in this run. -/
def Unacked (acked : List Nat) (files : List OutboxFile) : Prop :=
  ∀ file ∈ files, file.serial ∉ acked

/-- The first file was acknowledged, and no other one. -/
def Acking (m : Machine) (acked : List Nat) (files : List OutboxFile) (file : OutboxFile) : Prop :=
  file.serial ∈ m.acked ∧ ∃ rest, files = file :: rest ∧ Unacked acked rest

/-- What holds of the queued files at a stage of the delivery loop. -/
def WorkerHolds (m : Machine) (acked : List Nat) (files : List OutboxFile) : Worker → Prop
  | .idle => Unacked acked files
  | .reading file => Unacked acked files ∧ ∃ rest, files = file :: rest
  | .posting file body _ => Unacked acked files ∧ (∃ rest, files = file :: rest) ∧
      m.log[file.serial]? = some { body := body, events := file.events }
  | .unlinking file => Acking m acked files file
  | .committing file => Acking m acked files file ∧
      ∀ entry ∈ m.disk.visible, entry.1 ≠ file.name
  | .forgetting file => Acking m acked files file ∧
      m.disk.Only fun entry => entry.1 ≠ file.name
  | .stopped => True

/-- The worker only relies on what later states have as well. -/
theorem WorkerHolds.mono {m next : Machine} {acked : List Nat} {files : List OutboxFile}
    {worker : Worker} (holds : WorkerHolds m acked files worker) (log : m.log <+: next.log)
    (serials : m.acked ⊆ next.acked)
    (visible : ∀ file ∈ files, (∀ entry ∈ m.disk.visible, entry.1 ≠ file.name) →
      ∀ entry ∈ next.disk.visible, entry.1 ≠ file.name)
    (only : ∀ file ∈ files, m.disk.Only (fun entry => entry.1 ≠ file.name) →
      next.disk.Only fun entry => entry.1 ≠ file.name) :
    WorkerHolds next acked files worker := by
  cases worker with
  | idle => exact holds
  | reading file => exact holds
  | posting file body attempt =>
      obtain ⟨unacked, head, batch⟩ := holds
      refine ⟨unacked, head, ?_⟩
      obtain ⟨more, same⟩ := log
      rw [← same, List.getElem?_append_left (List.getElem?_eq_some_iff.mp batch).1]
      exact batch
  | unlinking file => exact ⟨serials holds.1, holds.2⟩
  | committing file =>
      obtain ⟨⟨isAcked, rest, split, unacked⟩, gone⟩ := holds
      exact ⟨⟨serials isAcked, rest, split, unacked⟩,
        visible file (split ▸ List.mem_cons_self) gone⟩
  | forgetting file =>
      obtain ⟨⟨isAcked, rest, split, unacked⟩, gone⟩ := holds
      exact ⟨⟨serials isAcked, rest, split, unacked⟩, only file (split ▸ List.mem_cons_self) gone⟩
  | stopped => trivial

theorem WorkerHolds.record {m : Machine} {acked : List Nat} {files : List OutboxFile}
    {worker : Worker} (holds : WorkerHolds m acked files worker) {change : Change Name File}
    (apart : ∀ entry, change.written = some entry → ∀ file ∈ files, entry.1 ≠ file.name) :
    WorkerHolds { m with disk := m.disk.record change } acked files worker := by
  refine holds.mono (List.prefix_refl _) (List.Subset.refl _)
    (fun file member gone entry found => ?_)
    fun file member gone => gone.record fun entry written => apart entry written file member
  rw [Disk.visible_record] at found
  rcases Change.mem_apply found with written | before
  · exact apart entry written file member
  · exact gone entry before

theorem WorkerHolds.sync {m : Machine} {acked : List Nat} {files : List OutboxFile}
    {worker : Worker} (holds : WorkerHolds m acked files worker) :
    WorkerHolds { m with disk := m.disk.sync } acked files worker :=
  holds.mono (List.prefix_refl _) (List.Subset.refl _) (fun _ _ gone => gone)
    fun _ _ gone => Disk.only_sync gone.visible

/-- A new file at the end of the queue that was not posted in this run. -/
theorem WorkerHolds.push {m : Machine} {acked : List Nat} {files : List OutboxFile}
    {worker : Worker} (holds : WorkerHolds m acked files worker) {file : OutboxFile}
    (fresh : file.serial ∉ acked) : WorkerHolds m acked (files ++ [file]) worker := by
  have extended : ∀ {part}, Unacked acked part → Unacked acked (part ++ [file]) := by
    intro part unacked other member
    rcases List.mem_append.mp member with before | here
    · exact unacked other before
    · rw [List.mem_singleton.mp here]
      exact fresh
  have acking : ∀ {first}, Acking m acked files first → Acking m acked (files ++ [file]) first := by
    rintro first ⟨isAcked, rest, rfl, unacked⟩
    exact ⟨isAcked, rest ++ [file], rfl, extended unacked⟩
  cases worker with
  | idle => exact extended holds
  | reading first =>
      obtain ⟨unacked, rest, rfl⟩ := holds
      exact ⟨extended unacked, rest ++ [file], rfl⟩
  | posting first body attempt =>
      obtain ⟨unacked, ⟨rest, rfl⟩, batch⟩ := holds
      exact ⟨extended unacked, ⟨rest ++ [file], rfl⟩, batch⟩
  | unlinking first => exact acking holds
  | committing first => exact ⟨acking holds.1, holds.2⟩
  | forgetting first => exact ⟨acking holds.1, holds.2⟩
  | stopped => trivial

/-! ## The whole process -/

/-- A running process; `extra` is a renamed file that is not queued. -/
structure Running (config : OutboxConfig) (m : Machine) (p : Process)
    (extra : List OutboxFile) : Prop where
  stored : Stored config m.disk m.log m.accepted m.acked (p.state.files ++ extra)
  extra_eq : extra = p.persister.renamed ∨ p.poisoned = true ∧ p.persister.job = none
  bytes : p.state.bytes = totalBytes p.state.files
  job : ∀ job, p.persister.job = some job → JobHolds config m p.state.files p.poisoned job
  stage : StageHolds m.disk m.log p.persister
  worker : WorkerHolds m p.acked p.state.files p.worker
  acked : ∀ serial ∈ p.acked, serial ∈ m.acked

/-- The invariant of the outbox. -/
def Sound (config : OutboxConfig) (m : Machine) : Prop :=
  match m.process with
  | none => ∃ files, Stored config m.disk m.log m.accepted m.acked files
  | some p => ∃ extra, Running config m p extra

end MarketBenchmark.Outbox
