import MarketBenchmark.Outbox.Recovery

/-!
# Batches are acknowledged in the order of their admission

The worker posts the first batch of its queue until it is acknowledged, and every
process recovers its queue in the order of admission.  So no accepted batch is
overtaken, across failures, crashes and restarts, and within one process no batch
is acknowledged twice.
-/

namespace MarketBenchmark.Outbox

open Foundation

variable {config : OutboxConfig} {m next : Machine} {p : Process}

/-- No accepted batch was overtaken, and the queue has nothing older than what this process had
acknowledged. -/
structure InOrder (m : Machine) : Prop where
  accepted : m.accepted.Pairwise (· < ·)
  overtaken : ∀ serial ∈ m.acked, ∀ earlier ∈ m.accepted, earlier < serial → earlier ∈ m.acked
  once : ∀ p, m.process = some p → p.acked.Pairwise (· < ·)
  older : ∀ p, m.process = some p → ∀ serial ∈ p.acked, ∀ file ∈ p.state.files,
    serial ≤ file.serial

namespace InOrder

theorem new : InOrder Machine.new :=
  ⟨List.Pairwise.nil, nofun, nofun, nofun⟩

/-- The queue may lose files; nothing is accepted or acknowledged. -/
theorem frame (inOrder : InOrder m) (current : m.process = some p) {after : Process}
    (process : next.process = some after) (accepted : next.accepted = m.accepted)
    (acked : next.acked = m.acked) (own : after.acked = p.acked)
    (files : after.state.files ⊆ p.state.files) : InOrder next where
  accepted := accepted ▸ inOrder.accepted
  overtaken := by
    rw [accepted, acked]
    exact inOrder.overtaken
  once := by
    intro q running
    obtain rfl := Option.some.inj (process.symm.trans running)
    exact own ▸ inOrder.once p current
  older := by
    intro q running serial isAcked file member
    obtain rfl := Option.some.inj (process.symm.trans running)
    exact inOrder.older p current serial (own ▸ isAcked) file (files member)

/-- Without a process, or with one that has had nothing acknowledged, the past alone counts. -/
theorem restart (inOrder : InOrder m) (accepted : next.accepted = m.accepted)
    (acked : next.acked = m.acked) (fresh : ∀ q, next.process = some q → q.acked = []) :
    InOrder next where
  accepted := accepted ▸ inOrder.accepted
  overtaken := by
    rw [accepted, acked]
    exact inOrder.overtaken
  once q running := (fresh q running).symm ▸ List.Pairwise.nil
  older q running serial isAcked := by
    rw [fresh q running] at isAcked
    exact absurd isAcked List.not_mem_nil

variable {extra : List OutboxFile}

/-- A pushed batch is newer than all that were accepted or acknowledged. -/
theorem push (inOrder : InOrder m) (running : Running config m p extra)
    (current : m.process = some p) {job : Job} (stage : p.persister = .pushing job) :
    InOrder { m with
      accepted := m.accepted ++ [job.file.serial]
      process := some
        { p with
          persister := .idle
          state := { files := p.state.files ++ [job.file], bytes := job.nextBytes } } } := by
  have holds := running.job job (by rw [stage]; rfl)
  refine ⟨?_, ?_, ?_, ?_⟩
  · refine List.pairwise_append.mpr ⟨inOrder.accepted, List.pairwise_singleton _ _, ?_⟩
    intro earlier isAccepted last here
    rw [List.mem_singleton.mp here]
    exact holds.newest earlier (Or.inl isAccepted)
  · intro serial isAcked earlier member less
    rcases List.mem_append.mp member with before | here
    · exact inOrder.overtaken serial isAcked earlier before less
    · rw [List.mem_singleton.mp here] at less
      exact absurd (holds.newest serial (Or.inr isAcked)) (Nat.lt_asymm less)
  · rintro q ⟨⟩
    exact inOrder.once p current
  · rintro q ⟨⟩ serial isAcked file member
    rcases List.mem_append.mp member with before | here
    · exact inOrder.older p current serial isAcked file before
    · rw [List.mem_singleton.mp here]
      exact (holds.newest serial (Or.inr (running.acked serial isAcked))).le

/-- The acknowledged batch is the oldest that is not acknowledged yet. -/
theorem acknowledge (inOrder : InOrder m) (running : Running config m p extra)
    (current : m.process = some p) {file : OutboxFile} {body : Bytes} {attempt : Nat}
    (worker : p.worker = .posting file body attempt) :
    InOrder { m with
      acked := m.acked ++ [file.serial]
      process := some
        { p with worker := .unlinking file, acked := p.acked ++ [file.serial] } } := by
  have holds := running.worker
  rw [worker] at holds
  obtain ⟨unacked, ⟨rest, split⟩, _⟩ := holds
  have member : file ∈ p.state.files := split ▸ List.mem_cons_self
  have ordered := running.stored.queue.ordered
  rw [split, List.cons_append, List.pairwise_cons] at ordered
  have first : ∀ other ∈ p.state.files, file.serial ≤ other.serial := by
    intro other inQueue
    rw [split] at inQueue
    rcases List.mem_cons.mp inQueue with rfl | later
    · exact Nat.le_refl _
    · exact (ordered.1 other (List.mem_append_left extra later)).2.le
  refine ⟨inOrder.accepted, ?_, ?_, ?_⟩
  · intro serial isAcked earlier isAccepted less
    rcases List.mem_append.mp isAcked with before | here
    · exact List.mem_append_left _ (inOrder.overtaken serial before earlier isAccepted less)
    · rw [List.mem_singleton.mp here] at less
      -- an older batch that is not acknowledged would be queued before the first one
      by_contra notAcked
      obtain ⟨other, queued, same⟩ := running.stored.found earlier isAccepted fun isAcked =>
        notAcked (List.mem_append_left _ isAcked)
      rw [split, List.cons_append] at queued
      rcases List.mem_cons.mp queued with rfl | later
      · exact absurd same less.ne'
      · exact absurd (ordered.1 other later).2 (same ▸ Nat.lt_asymm less)
  · rintro q ⟨⟩
    refine List.pairwise_append.mpr ⟨inOrder.once p current, List.pairwise_singleton _ _, ?_⟩
    intro earlier isAcked last here
    rw [List.mem_singleton.mp here]
    refine (inOrder.older p current earlier isAcked file member).lt_of_ne ?_
    rintro rfl
    exact unacked file member isAcked
  · rintro q ⟨⟩ serial isAcked other inQueue
    rcases List.mem_append.mp isAcked with before | here
    · exact inOrder.older p current serial before other inQueue
    · rw [List.mem_singleton.mp here]
      exact first other inQueue

section Steps

variable {Event : Type} {encode : Event → Option Bytes}

theorem operates (inOrder : InOrder m) (running : Running config m p extra)
    (current : m.process = some p) {action : PersistAction Event}
    (operates : Operates m p action next) : InOrder next := by
  cases operates with
  | pushed stage => exact inOrder.push running current stage
  | _ => exact inOrder.frame current rfl rfl rfl rfl (List.Subset.refl _)

theorem delivers (inOrder : InOrder m) (running : Running config m p extra)
    (current : m.process = some p) {action : WorkAction} (delivers : Delivers m p action next) :
    InOrder next := by
  cases delivers with
  | acknowledged _ worker => exact inOrder.acknowledge running current worker
  | forgets _ _ _ => exact inOrder.frame current rfl rfl rfl rfl List.eraseP_subset
  | _ => exact inOrder.frame current rfl rfl rfl rfl (List.Subset.refl _)

theorem submit (inOrder : InOrder m) (current : m.process = some p) (events : List Event)
    (now : Nat) (id : List Char) : InOrder (submit encode config m p events now id) := by
  unfold Outbox.submit
  split
  · exact inOrder
  · split
    · exact inOrder
    · split
      · exact inOrder
      · exact inOrder.frame current rfl rfl rfl rfl (List.Subset.refl _)

theorem start (inOrder : InOrder m) (stopped : m.process = none) (listing : List (Name × File))
    (removed : Name → Bool) (succeeds : Bool) :
    InOrder (start config m listing removed succeeds) := by
  unfold Outbox.start
  dsimp only
  split
  · exact inOrder.restart rfl rfl fun q running => Option.some.inj running ▸ rfl
  · exact inOrder.restart rfl rfl fun q running =>
      absurd (stopped.symm.trans running) (Option.some_ne_none q).symm

theorem step (inOrder : InOrder m) (sound : Sound config m) {action : Action Event}
    (stepped : step encode config m action = some next) : InOrder next := by
  cases action with
  | persist action =>
      obtain ⟨p, current, acted⟩ := Option.bind_eq_some_iff.mp stepped
      obtain ⟨extra, running⟩ := sound.running current
      cases action with
      | submit events now id =>
          simp only [persistStep] at acted
          split at acted
          · cases acted
            exact inOrder.submit current events now id
          · cases acted
      | _ => exact inOrder.operates running current (operates_of_persistStep (by simp) acted)
  | work action =>
      obtain ⟨p, current, acted⟩ := Option.bind_eq_some_iff.mp stepped
      obtain ⟨extra, running⟩ := sound.running current
      exact inOrder.delivers running current (delivers_of_workStep acted)
  | close =>
      obtain ⟨p, current, rfl⟩ := Option.map_eq_some_iff.mp stepped
      exact inOrder.frame current rfl rfl rfl rfl (List.Subset.refl _)
  | exit =>
      cases stepped
      refine inOrder.restart rfl rfl fun q running => ?_
      cases running
  | crash survived torn =>
      simp only [Outbox.step] at stepped
      split at stepped
      · cases stepped
        refine inOrder.restart rfl rfl fun q running => ?_
        cases running
      · cases stepped
  | start listing removed succeeds =>
      simp only [Outbox.step] at stepped
      split at stepped
      next both =>
        cases stepped
        exact inOrder.start (Option.isNone_iff_eq_none.mp both.1) listing removed succeeds
      · cases stepped

end Steps

end InOrder

/--
Whatever operations failed and whatever crashes and restarts came between, the
batches are accepted in the order of their serial numbers, no batch is
acknowledged before an older accepted one, and within one process each batch is
acknowledged at most once, in that order.
-/
theorem acknowledged_in_order {Event : Type} (encode : Event → Option Bytes)
    (someFiles : 0 < config.maxFiles) (someBytes : 0 < config.maxBytes)
    {actions : List (Action Event)}
    (reached : Runs.run (step encode config) Machine.new actions = some m) :
    m.accepted.Pairwise (· < ·) ∧
    (∀ serial ∈ m.acked, ∀ earlier ∈ m.accepted, earlier < serial → earlier ∈ m.acked) ∧
    ∀ p, m.process = some p → p.acked.Pairwise (· < ·) := by
  have both : Sound config m ∧ InOrder m :=
    Runs.run_preserves (fun m => Sound config m ∧ InOrder m)
      (fun _ _ _ both stepped =>
        ⟨both.1.step someFiles someBytes stepped, both.2.step both.1 stepped⟩)
      ⟨sound_new, .new⟩ reached
  exact ⟨both.2.accepted, both.2.overtaken, both.2.once⟩

/-- The sample crashes with its first batch acknowledged and its second one accepted. -/
theorem acknowledged_in_order_sample :
    ∃ m, Runs.run (step (fun byte => some [byte]) sampleConfig) Machine.new sampleActions =
        some m ∧ m.accepted.Pairwise (· < ·) ∧ m.acked = [0] ∧
      ∀ serial ∈ m.acked, ∀ earlier ∈ m.accepted, earlier < serial → earlier ∈ m.acked := by
  have outcome : (Runs.run (step (fun byte => some [byte]) sampleConfig) Machine.new
      sampleActions).map Machine.acked = some [0] := by decide +kernel
  obtain ⟨m, reached, acked⟩ := Option.map_eq_some_iff.mp outcome
  have inOrder := acknowledged_in_order (fun byte => some [byte]) (by decide) (by decide) reached
  exact ⟨m, reached, inOrder.1, acked, inOrder.2.1⟩

end MarketBenchmark.Outbox
