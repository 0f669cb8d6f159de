import MarketBenchmark.Outbox.Actions

/-!
# The outbox recovers what it accepted

Every action keeps the invariant, so whatever operation failed and wherever a
crash came, a new process finds the accepted batches that are not acknowledged,
whole and in the order of their admission.
-/

namespace MarketBenchmark.Outbox

open Foundation

variable {config : OutboxConfig}

section Restarts

variable {Event : Type} {encode : Event → Option Bytes} {m next : Machine} {p : Process}
  {extra : List OutboxFile}

theorem Stored.withLock {disk : Disk Name File} {log : List Batch} {accepted acked : List Nat}
    {files : List OutboxFile} (stored : Stored config disk log accepted acked files) :
    Stored config (withLock disk) log accepted acked files := by
  unfold Outbox.withLock
  split
  · refine stored.record_other (fun name touched => ?_) fun entry written => ?_
    · rw [List.mem_singleton.mp touched]
      exact not_isBatchName_lockName
    · cases written
      exact not_isBatchName_lockName
  · exact stored

theorem Stored.removeTemps {log : List Batch} {accepted acked : List Nat}
    {files : List OutboxFile} (removed : Name → Bool) (listing : List (Name × File))
    {disk : Disk Name File} (stored : Stored config disk log accepted acked files) :
    Stored config (removeTemps removed disk listing) log accepted acked files := by
  induction listing generalizing disk with
  | nil => exact stored
  | cons entry rest ih =>
      refine ih ?_
      split
      next both =>
        refine stored.record_other (fun name touched => ?_) nofun
        rw [List.mem_singleton.mp touched]
        exact not_isBatchName_of_isTempName both.1
      · exact stored

/-- Batch files stay when temporary files are removed. -/
theorem mem_removeTemps {removed : Name → Bool} {listing : List (Name × File)}
    {disk : Disk Name File} {entry : Name × File} (isBatch : IsBatchName entry.1)
    (found : entry ∈ disk.visible) : entry ∈ (removeTemps removed disk listing).visible := by
  induction listing generalizing disk with
  | nil => exact found
  | cons other rest ih =>
      refine ih ?_
      split
      next both =>
        rw [Disk.visible_record]
        refine Change.mem_apply_of_untouched found fun touched => ?_
        exact not_isBatchName_of_isTempName both.1 (List.mem_singleton.mp touched ▸ isBatch)
      · exact found

theorem mem_of_removeTemps {removed : Name → Bool} {listing : List (Name × File)}
    {disk : Disk Name File} {entry : Name × File}
    (found : entry ∈ (removeTemps removed disk listing).visible) : entry ∈ disk.visible := by
  induction listing generalizing disk with
  | nil => exact found
  | cons other rest ih =>
      have before := ih found
      split at before
      · rw [Disk.visible_record] at before
        exact (OrderedMap.mem_erase.mp before).1
      · exact before

/-- Opening after any run of the outbox. -/
theorem Stored.opens {disk : Disk Name File} {log : List Batch} {accepted acked : List Nat}
    {files : List OutboxFile} (stored : Stored config disk log accepted acked files)
    (someFiles : 0 < config.maxFiles) (someBytes : 0 < config.maxBytes)
    {listing : List (Name × File)} (listed : listing.Perm disk.visible.entries) :
    ∃ state, openFiles config listing = .ok state ∧ state.files.Sublist files ∧
      state.bytes = totalBytes state.files ∧
      ∀ file, file ∈ state.files ↔ file ∈ files ∧ (file.name, contents log file) ∈ listing := by
  refine stored.queue.openFiles_ok someFiles someBytes ?_ fun entry member => ?_
  · exact (listed.map Prod.fst).nodup_iff.mpr disk.visible.nodup_keys
  · exact stored.only.visible entry (listed.subset member)

/-- What was recovered is stored for good. -/
theorem Stored.recovered {disk : Disk Name File} {log : List Batch} {accepted acked : List Nat}
    {files : List OutboxFile} (stored : Stored config disk log accepted acked files)
    {listing : List (Name × File)} (listed : listing.Perm disk.visible.entries)
    {state : OutboxState} (sublist : state.files.Sublist files)
    (members : ∀ file, file ∈ state.files ↔
      file ∈ files ∧ (file.name, contents log file) ∈ listing) (removed : Name → Bool) :
    Stored config (Outbox.removeTemps removed disk listing).sync log accepted acked
      state.files := by
  have visible : ∀ file ∈ state.files, (file.name, contents log file) ∈
      (Outbox.removeTemps removed disk listing).visible := by
    intro file member
    obtain ⟨within, found⟩ := (members file).mp member
    exact mem_removeTemps (stored.queue.wellFormed file within).isBatchName (listed.subset found)
  constructor
  · exact stored.queue.sublist sublist
  · refine Disk.only_sync fun entry found isBatch => ?_
    obtain ⟨file, member, name, same⟩ := stored.only.visible entry (mem_of_removeTemps found)
      isBatch
    refine ⟨file, (members file).mpr ⟨member, listed.symm.subset ?_⟩, name, same⟩
    rw [name, same]
    exact mem_of_removeTemps found
  · intro file member _ _
    exact Disk.keeps_sync (visible file member)
  · intro serial isAccepted notAcked
    obtain ⟨file, member, same⟩ := stored.found serial isAccepted notAcked
    subst same
    exact ⟨file, (members file).mpr ⟨member, listed.symm.subset
      (stored.kept file member isAccepted notAcked).visible⟩, rfl⟩
  · exact stored.logged

theorem Sound.start (stored : ∃ files, Stored config m.disk m.log m.accepted m.acked files)
    (someFiles : 0 < config.maxFiles) (someBytes : 0 < config.maxBytes) (stopped : m.process = none)
    {listing : List (Name × File)} (listed : listing.Perm (withLock m.disk).visible.entries)
    (removed : Name → Bool) (succeeds : Bool) :
    Sound config (start config m listing removed succeeds) := by
  obtain ⟨files, stored⟩ := stored
  obtain ⟨state, opened, sublist, bytes, members⟩ :=
    stored.withLock.opens someFiles someBytes listed
  unfold Outbox.start
  rw [opened]
  cases succeeds with
  | false =>
      have failed := stored.withLock.removeTemps removed listing
      unfold Sound
      simp only [stopped]
      exact ⟨files, failed⟩
  | true =>
      refine ⟨[], ?_⟩
      constructor
      · rw [List.append_nil]
        exact stored.withLock.recovered listed sublist members removed
      · exact Or.inl rfl
      · exact bytes
      · exact nofun
      · trivial
      · exact fun _ _ => List.not_mem_nil
      · exact nofun

/-- Whether a process runs or not, the directory has a sound queue. -/
theorem Sound.stored (sound : Sound config m) :
    ∃ files, Stored config m.disk m.log m.accepted m.acked files := by
  unfold Sound at sound
  cases current : m.process with
  | none =>
      rw [current] at sound
      exact sound
  | some p =>
      rw [current] at sound
      obtain ⟨extra, running⟩ := sound
      exact ⟨_, running.stored⟩

theorem Sound.running (sound : Sound config m) (current : m.process = some p) :
    ∃ extra, Running config m p extra := by
  unfold Sound at sound
  rw [current] at sound
  exact sound

theorem sound_new : Sound config Machine.new :=
  ⟨[], Queue.nil, ⟨nofun, nofun⟩, nofun, nofun, nofun⟩

/-- Every action keeps the outbox sound. -/
theorem Sound.step (sound : Sound config m) (someFiles : 0 < config.maxFiles)
    (someBytes : 0 < config.maxBytes) {action : Action Event}
    (stepped : step encode config m action = some next) : Sound config next := by
  cases action with
  | persist action =>
      obtain ⟨p, current, acted⟩ := Option.bind_eq_some_iff.mp stepped
      obtain ⟨extra, running⟩ := sound.running current
      exact sound_persistStep running current acted
  | work action =>
      obtain ⟨p, current, acted⟩ := Option.bind_eq_some_iff.mp stepped
      obtain ⟨extra, running⟩ := sound.running current
      exact sound_delivers running (delivers_of_workStep acted)
  | close =>
      obtain ⟨p, current, rfl⟩ := Option.map_eq_some_iff.mp stepped
      obtain ⟨extra, running⟩ := sound.running current
      have closing : Running config m { p with stopping := true } extra := { running with }
      exact closing.sound
  | exit =>
      cases stepped
      exact sound.stored
  | crash survived torn =>
      simp only [Outbox.step] at stepped
      split at stepped
      next sublist =>
        cases stepped
        obtain ⟨files, stored⟩ := sound.stored
        exact ⟨files, stored.crash sublist torn⟩
      · cases stepped
  | start listing removed succeeds =>
      simp only [Outbox.step] at stepped
      split at stepped
      next both =>
        cases stepped
        exact Sound.start sound.stored someFiles someBytes (Option.isNone_iff_eq_none.mp both.1)
          both.2 removed succeeds
      · cases stepped

end Restarts

/-! ## What a restart finds -/

/-- The files that `open` queues are whole admitted batches in the order of their admission, and
all accepted batches that are not acknowledged are among them. -/
structure Recovers (m : Machine) (listing : List (Name × File)) (files : List OutboxFile) :
    Prop where
  inOrder : files.Pairwise fun earlier later => earlier.serial < later.serial
  whole : ∀ file ∈ files, ¬IsTempName file.name ∧
    ∃ batch stored, m.log[file.serial]? = some batch ∧ (file.name, stored) ∈ listing ∧
      stored.content = batch.body ∧ file.bytes = batch.body.length ∧ file.events = batch.events
  accepted : ∀ serial ∈ m.accepted, serial ∉ m.acked → ∃ file ∈ files, file.serial = serial

/-- The queue is in the order of admission, and only its whole first batch is posted, unless this
process had it acknowledged. -/
structure PostsHead (m : Machine) (p : Process) : Prop where
  inOrder : p.state.files.Pairwise fun earlier later => earlier.serial < later.serial
  head : ∀ file body attempt, p.worker = .posting file body attempt →
    p.state.files.head? = some file ∧ file.serial ∉ p.acked ∧
      m.log[file.serial]? = some { body := body, events := file.events }

theorem Stored.recovers {m : Machine} {files : List OutboxFile}
    (stored : Stored config m.disk m.log m.accepted m.acked files)
    (someFiles : 0 < config.maxFiles) (someBytes : 0 < config.maxBytes)
    {listing : List (Name × File)}
    (listed : listing.Perm (Outbox.withLock m.disk).visible.entries) :
    ∃ state, openFiles config listing = .ok state ∧ Recovers m listing state.files := by
  obtain ⟨state, opened, sublist, _, members⟩ := stored.withLock.opens someFiles someBytes listed
  refine ⟨state, opened, ?_⟩
  constructor
  · exact (stored.queue.sublist sublist).ordered.imp fun apart => apart.2
  · intro file member
    obtain ⟨within, found⟩ := (members file).mp member
    have wellFormed := stored.queue.wellFormed file within
    obtain ⟨batch, logged, length, events⟩ := wellFormed.batch
    refine ⟨fun temp => not_isBatchName_of_isTempName temp wellFormed.isBatchName, batch, _, logged,
      found, ?_, length.symm, events.symm⟩
    simp [contents, logged]
  · intro serial isAccepted notAcked
    obtain ⟨file, member, same⟩ := stored.found serial isAccepted notAcked
    subst same
    exact ⟨file, (members file).mpr ⟨member, listed.symm.subset
      (stored.withLock.kept file member isAccepted notAcked).visible⟩, rfl⟩

theorem Running.postsHead {m : Machine} {p : Process} {extra : List OutboxFile}
    (running : Running config m p extra) : PostsHead m p := by
  constructor
  · exact (running.stored.queue.sublist (List.sublist_append_left _ _)).ordered.imp
      fun apart => apart.2
  · intro file body attempt posting
    have holds := running.worker
    rw [posting] at holds
    obtain ⟨unacked, ⟨rest, split⟩, logged⟩ := holds
    refine ⟨?_, unacked file (split ▸ List.mem_cons_self), logged⟩
    rw [split]
    rfl

/--
Whatever actions came before, operations failed and crashes struck, opening the
directory succeeds and recovers the accepted batches, and a running process
posts the first batch of its queue only.
-/
theorem outbox_recovers {Event : Type} (encode : Event → Option Bytes)
    (someFiles : 0 < config.maxFiles) (someBytes : 0 < config.maxBytes)
    {actions : List (Action Event)} {m : Machine}
    (reached : Runs.run (step encode config) Machine.new actions = some m) :
    (m.process = none → ∀ listing, listing.Perm (withLock m.disk).visible.entries →
      ∃ state, openFiles config listing = .ok state ∧ Recovers m listing state.files) ∧
    ∀ p, m.process = some p → PostsHead m p := by
  have sound : Sound config m :=
    Runs.run_preserves (Sound config)
      (fun _ _ _ sound stepped => sound.step someFiles someBytes stepped) sound_new reached
  constructor
  · intro _ listing listed
    obtain ⟨files, stored⟩ := sound.stored
    exact stored.recovers someFiles someBytes listed
  · intro p current
    obtain ⟨extra, running⟩ := sound.running current
    exact running.postsHead

def sampleConfig : OutboxConfig where
  maxFiles := 4
  maxBytes := 1000

/-- A batch is accepted and its acknowledged file unlinked, a second one is accepted, and the
process crashes before it synchronises the unlinking. -/
def sampleActions : List (Action UInt8) :=
  [.start [(lockName, { content := [], synced := false, serial := 0 })] (fun _ => false) true,
    .persist (.submit [7, 8] 1000 "a".toList), .persist (.createTemp true),
    .persist (.writeTemp true []), .persist (.syncTemp true), .persist (.rename true),
    .persist (.syncDirectory true), .persist .push,
    .work .next, .work (.read true), .work (.post (some { ingested := 2, failed := 0 })),
    .persist (.submit [9] 1000 "b".toList), .persist (.createTemp true),
    .persist (.writeTemp true []), .persist (.syncTemp true), .persist (.rename true),
    .persist (.syncDirectory true), .persist .push,
    .work (.unlink true), .crash [] (fun _ => [])]

theorem outbox_recovers_sample :
    ∃ m, Runs.run (step (fun byte => some [byte]) sampleConfig) Machine.new sampleActions =
        some m ∧ m.accepted = [0, 1] ∧ m.acked = [0] ∧
      ∀ listing, listing.Perm (withLock m.disk).visible.entries →
        ∃ state, openFiles sampleConfig listing = .ok state ∧ Recovers m listing state.files := by
  have outcome : (Runs.run (step (fun byte => some [byte]) sampleConfig) Machine.new
      sampleActions).map (fun m => (m.process.isNone, m.accepted, m.acked)) =
        some (true, [0, 1], [0]) := by decide +kernel
  obtain ⟨m, reached, same⟩ := Option.map_eq_some_iff.mp outcome
  obtain ⟨stopped, accepted, acked⟩ := Prod.mk.inj same |>.imp id Prod.mk.inj
  exact ⟨m, reached, accepted, acked,
    (outbox_recovers (fun byte => some [byte]) (by decide) (by decide) reached).1
      (Option.isNone_iff_eq_none.mp stopped)⟩

end MarketBenchmark.Outbox
