import MarketBenchmark.Outbox.Transitions
import MarketBenchmark.Outbox.Recovery

/-!
# Failed admissions leave the outbox as it was

The lock is held from the admission of a batch to the return of its call, so the
queue and its counters stay as they were at the lock until the batch is pushed,
and the directory gets no batch name before the rename.  Once a synchronisation
fails after a rename the process is poisoned: no call gets past the flag, and
the directory only loses names.
-/

namespace MarketBenchmark.Outbox

open Foundation

variable {config : OutboxConfig} {Event : Type} {encode : Event → Option Bytes}

/-! ## What is restored -/

/-- The queue and its counters are the same. -/
structure View.SameQueue (before after : View) : Prop where
  files : after.files = before.files
  bytes : after.bytes = before.bytes
  pendingBatches : after.pendingBatches = before.pendingBatches
  pendingBytes : after.pendingBytes = before.pendingBytes

theorem View.SameQueue.refl (seen : View) : seen.SameQueue seen := ⟨rfl, rfl, rfl, rfl⟩

/-- Every batch file was there before. -/
def NoNewBatch (before after : List Name) : Prop :=
  ∀ name ∈ after, IsBatchName name → name ∈ before

/-- The call leaves the queue and the batch files as it found them. -/
structure PersistReturn.Restored (returned : PersistReturn) : Prop where
  queue : returned.atLock.SameQueue returned.atReturn
  names : NoNewBatch returned.atLock.names returned.atReturn.names

/-- The calls that dropped their batch. -/
def drops (returns : List PersistReturn) : List PersistReturn :=
  returns.filter fun returned => returned.result = .dropped

/-- The drop counters tell the drops, a dropping call restores the queue, and a process with an
ambiguous return is poisoned and creates nothing. -/
structure Settled (health : IngestHealth) (returns : List PersistReturn) (poisoned : Bool)
    (names : List Name) : Prop where
  batchesDropped : health.batchesDropped = .ofNat (drops returns).length
  eventsDropped : health.eventsDropped = .ofNat ((drops returns).map PersistReturn.events).sum
  restored : ∀ returned ∈ returns, returned.result = .dropped → returned.Restored
  ambiguous : ∀ returned ∈ returns, returned.result = .ambiguous →
    poisoned = true ∧ returned.atLock.SameQueue returned.atReturn ∧
      ∀ name ∈ names, name ∈ returned.atReturn.names
  afterwards : returns.Pairwise fun earlier later =>
    earlier.result = .ambiguous → later.result = .poisoned

namespace Settled

variable {health after : IngestHealth} {returns : List PersistReturn} {poisoned : Bool}
  {names fewer : List Name}

theorem nil (state : OutboxState) : Settled (.opened state) [] poisoned names where
  batchesDropped := rfl
  eventsDropped := rfl
  restored _ member := absurd member List.not_mem_nil
  ambiguous _ member := absurd member List.not_mem_nil
  afterwards := List.Pairwise.nil

/-- The directory may lose names and the other counters may move. -/
theorem mono (settled : Settled health returns poisoned names)
    (batches : after.batchesDropped = health.batchesDropped)
    (events : after.eventsDropped = health.eventsDropped)
    (subset : ∀ name ∈ fewer, name ∈ names) : Settled after returns poisoned fewer where
  batchesDropped := batches.trans settled.batchesDropped
  eventsDropped := events.trans settled.eventsDropped
  restored := settled.restored
  ambiguous := fun returned member result =>
    have ⟨isPoisoned, queue, within⟩ := settled.ambiguous returned member result
    ⟨isPoisoned, queue, fun name present => within name (subset name present)⟩
  afterwards := settled.afterwards

/-- Without poison the directory may change. -/
theorem writable (settled : Settled health returns false names) :
    Settled health returns false fewer :=
  { settled with
    ambiguous := fun returned member result =>
      absurd (settled.ambiguous returned member result).1 Bool.false_ne_true }

/-- A call that does not drop its batch returns. -/
theorem answer (settled : Settled health returns poisoned names) {returned : PersistReturn}
    {later : Bool} (batches : after.batchesDropped = health.batchesDropped)
    (events : after.eventsDropped = health.eventsDropped) (result : returned.result ≠ .dropped)
    (refused : poisoned = true → returned.result = .poisoned)
    (stays : poisoned = true → later = true)
    (ambiguous : returned.result = .ambiguous →
      later = true ∧ returned.atLock.SameQueue returned.atReturn ∧
        ∀ name ∈ names, name ∈ returned.atReturn.names) :
    Settled after (returns ++ [returned]) later names := by
  have same : drops (returns ++ [returned]) = drops returns := by
    unfold drops
    rw [List.filter_append, List.filter_singleton, decide_eq_false result]
    exact List.append_nil _
  refine ⟨?_, ?_, fun other member => ?_, fun other member => ?_, ?_⟩
  · rw [same, batches]
    exact settled.batchesDropped
  · rw [same, events]
    exact settled.eventsDropped
  · rcases List.mem_append.mp member with before | here
    · exact settled.restored other before
    · rw [List.mem_singleton.mp here]
      exact fun dropped => absurd dropped result
  · rcases List.mem_append.mp member with before | here
    · intro isAmbiguous
      obtain ⟨isPoisoned, both⟩ := settled.ambiguous other before isAmbiguous
      exact ⟨stays isPoisoned, both⟩
    · rw [List.mem_singleton.mp here]
      exact ambiguous
  · refine List.pairwise_append.mpr ⟨settled.afterwards, List.pairwise_singleton _ _, ?_⟩
    intro earlier before last here isAmbiguous
    rw [List.mem_singleton.mp here]
    exact refused (settled.ambiguous earlier before isAmbiguous).1

/-- A call drops its batch. -/
theorem drop (settled : Settled health returns false names) {returned : PersistReturn}
    (batches : after.batchesDropped = health.batchesDropped + 1)
    (events : after.eventsDropped = health.eventsDropped + .ofNat returned.events)
    (result : returned.result = .dropped) (restored : returned.Restored) :
    Settled after (returns ++ [returned]) false fewer := by
  have same : drops (returns ++ [returned]) = drops returns ++ [returned] := by
    unfold drops
    rw [List.filter_append, List.filter_singleton, decide_eq_true result]
    rfl
  refine ⟨?_, ?_, fun other member => ?_, fun other member isAmbiguous => ?_, ?_⟩
  · rw [same, batches, settled.batchesDropped, List.length_append, UInt64.ofNat_add]
    rfl
  · rw [same, events, settled.eventsDropped, List.map_append, List.sum_append, UInt64.ofNat_add]
    rfl
  · rcases List.mem_append.mp member with before | here
    · exact settled.restored other before
    · rw [List.mem_singleton.mp here]
      exact fun _ => restored
  · rcases List.mem_append.mp member with before | here
    · exact absurd (settled.ambiguous other before isAmbiguous).1 Bool.false_ne_true
    · rw [List.mem_singleton.mp here, result] at isAmbiguous
      exact PersistResult.noConfusion isAmbiguous
  · refine List.pairwise_append.mpr ⟨settled.afterwards, List.pairwise_singleton _ _, ?_⟩
    intro earlier before last here isAmbiguous
    exact absurd (settled.ambiguous earlier before isAmbiguous).1 Bool.false_ne_true

end Settled

/-! ## The invariant -/

/-- The counters mirror the queue, and the call that holds the lock changed nothing yet. -/
structure Accounted (ledger : Ledger Event) (p : Process) : Prop where
  pendingBatches : ledger.health.pendingBatches = .ofNat p.state.files.length
  pendingBytes : ledger.health.pendingBytes = .ofNat p.state.bytes
  held : p.persister.job.isSome →
    ledger.locked.SameQueue (view ledger.machine p ledger.health) ∧
      (p.persister.renamed = [] → NoNewBatch ledger.locked.names ledger.machine.names)
  settled : Settled ledger.health ledger.returns p.poisoned ledger.machine.names

/-- The invariant of the outbox with its counters. -/
structure Balanced (config : OutboxConfig) (ledger : Ledger Event) : Prop where
  sound : Sound config ledger.machine
  accounted : ∀ p, ledger.machine.process = some p → Accounted ledger p

section Steps

variable {ledger after : Ledger Event} {p : Process}

namespace Accounted

/-- A call returns, and the pending counters stay. -/
theorem answer (accounted : Accounted ledger p) {atLock : View} {events : Nat}
    {health : IngestHealth} {result : PersistResult}
    (batches : health.pendingBatches = ledger.health.pendingBatches)
    (bytes : health.pendingBytes = ledger.health.pendingBytes)
    (settled : Settled health (ledger.answer p atLock events health result).returns p.poisoned
      ledger.machine.names) : Accounted (ledger.answer p atLock events health result) p where
  pendingBatches := batches.trans accounted.pendingBatches
  pendingBytes := bytes.trans accounted.pendingBytes
  held := fun isJob =>
    have ⟨queue, names⟩ := accounted.held isJob
    ⟨⟨queue.files, queue.bytes, batches.trans queue.pendingBatches, bytes.trans queue.pendingBytes⟩,
      names⟩
  settled := settled

/-- `persist_events` up to the lock. -/
theorem persist (accounted : Accounted ledger p) (events : List Event) :
    Accounted (ledger.persist encode p events) p := by
  have settled := accounted.settled
  unfold Ledger.persist
  dsimp only
  cases poisoned : p.poisoned with
  | true =>
      rw [if_pos rfl]
      refine accounted.answer rfl rfl (settled.answer rfl rfl PersistResult.noConfusion
        (fun _ => rfl) id PersistResult.noConfusion)
  | false =>
      have refused : ∀ {result : PersistResult}, p.poisoned = true → result = .poisoned :=
        fun isPoisoned => absurd (poisoned.symm.trans isPoisoned) Bool.false_ne_true
      rw [poisoned] at settled
      rw [if_neg Bool.false_ne_true]
      split
      · exact accounted.answer rfl rfl (accounted.settled.answer rfl rfl PersistResult.noConfusion
          refused id PersistResult.noConfusion)
      · split
        · refine accounted.answer rfl rfl ?_
          rw [poisoned]
          exact settled.drop rfl rfl rfl ⟨.refl _, fun _ member _ => member⟩
        · exact ⟨accounted.pendingBatches, accounted.pendingBytes, accounted.held,
            accounted.settled⟩

end Accounted

/-- Why a call is refused under the lock. -/
theorem refusal_cases {batch : Batch} {now : Nat} {result : PersistResult}
    (refused : refusal config p batch now = some result) :
    result = .poisoned ∧ p.poisoned = true ∨
      (result = .dropped ∨ result = .exhausted) ∧ p.poisoned = false := by
  unfold refusal at refused
  dsimp only at refused
  cases poisoned : p.poisoned with
  | true =>
      rw [poisoned, if_pos rfl] at refused
      exact Or.inl ⟨(Option.some.inj refused).symm, rfl⟩
  | false =>
      rw [poisoned, if_neg Bool.false_ne_true] at refused
      refine Or.inr ⟨?_, rfl⟩
      split at refused
      · exact Or.inl (Option.some.inj refused).symm
      · split at refused
        · exact Or.inr (Option.some.inj refused).symm
        · cases refused

/-- The lock is granted to a waiting call. -/
theorem Accounted.lock (accounted : Accounted ledger p) (current : ledger.machine.process = some p)
    {index now : Nat} {id : List Char}
    (stepped : ledger.lock encode config p index now id = some after) :
    ∃ later, after.machine.process = some later ∧ Accounted after later := by
  obtain ⟨events, _, stepped⟩ := Option.bind_eq_some_iff.mp stepped
  obtain ⟨batch, built, stepped⟩ := Option.bind_eq_some_iff.mp stepped
  obtain ⟨next, submitted, rfl⟩ := Option.map_eq_some_iff.mp stepped
  cases stage : p.persister with
  | idle =>
      simp only [persistStep, stage, Option.some.injEq] at submitted
      subst submitted
      -- with the lock free, the last call may have left any view
      have relocked : Accounted { ledger with
          waiting := ledger.waiting.eraseIdx index
          locked := view ledger.machine p ledger.health } p := by
        refine ⟨accounted.pendingBatches, accounted.pendingBytes, fun isJob => ?_,
          accounted.settled⟩
        rw [stage] at isJob
        exact absurd isJob Bool.false_ne_true
      rcases submit_cases encode config ledger.machine p built now id with
        same | ⟨admitted, job, same⟩
      · rw [same]
        refine ⟨p, ?_, ?_⟩
        · split
          · exact current
          · exact current
        · split
          · exact relocked
          next result refused =>
            rcases refusal_cases refused with ⟨rfl, poisoned⟩ | ⟨either, poisoned⟩
            · exact relocked.answer rfl rfl (relocked.settled.answer rfl rfl
                PersistResult.noConfusion (fun _ => rfl) (fun same => same)
                PersistResult.noConfusion)
            · have settled := relocked.settled
              rw [poisoned] at settled
              rcases either with rfl | rfl
              · refine relocked.answer rfl rfl ?_
                rw [poisoned]
                exact settled.drop rfl rfl rfl ⟨.refl _, fun _ member _ => member⟩
              · refine relocked.answer rfl rfl (relocked.settled.answer rfl rfl
                  PersistResult.noConfusion (fun isPoisoned => ?_) (fun same => same)
                  PersistResult.noConfusion)
                exact absurd (poisoned.symm.trans isPoisoned) Bool.false_ne_true
      · rw [same, admitted]
        exact ⟨_, rfl, accounted.pendingBatches, accounted.pendingBytes,
          fun _ => ⟨.refl _, fun _ _ member _ => member⟩, accounted.settled⟩
  | _ => simp [persistStep, stage] at submitted

/-- An operation of the call that holds the lock. -/
theorem Accounted.operate (accounted : Accounted ledger p) {extra : List OutboxFile}
    (running : Running config ledger.machine p extra) {action : PersistAction Event}
    (stepped : ledger.operate encode config p action = some after) :
    ∃ later, after.machine.process = some later ∧ Accounted after later := by
  obtain ⟨operation, next, later, acted, current, unsettled, returned⟩ := operate_spec stepped
  obtain ⟨job, _, isJob, same, leads⟩ :=
    operation_cases (operates_of_persistStep operation acted) ledger.health
  cases Option.some.inj (current.symm.trans same)
  have holds := running.job job isJob
  obtain ⟨queue, names⟩ := accounted.held (Option.isSome_of_eq_some isJob)
  have unpoisoned := accounted.settled
  rw [holds.notPoisoned] at unpoisoned
  have writable : ∀ fewer, Settled ledger.health ledger.returns false fewer :=
    fun fewer => unpoisoned.writable
  have refused : ∀ {result : PersistResult}, false = true → result = .poisoned :=
    fun impossible => absurd impossible Bool.false_ne_true
  refine ⟨later, ?_⟩
  generalize answered : Outbox.settled ledger.health p.persister action = outcome at leads
  cases leads with
  | goesOn goesOn =>
      rw [unsettled answered]
      refine ⟨current, ?_, ?_,
        fun _ => ⟨⟨?_, ?_, queue.pendingBatches, queue.pendingBytes⟩, fun queued => ?_⟩,
        ?_⟩
      · rw [goesOn.state]
        exact accounted.pendingBatches
      · rw [goesOn.state]
        exact accounted.pendingBytes
      · exact (congrArg OutboxState.files goesOn.state).trans queue.files
      · exact (congrArg OutboxState.bytes goesOn.state).trans queue.bytes
      · obtain ⟨before, within⟩ := goesOn.names queued
        intro name member batch
        rcases within name member with rfl | old
        · exact absurd batch (not_isBatchName_of_isTempName holds.temp)
        · exact names before name old batch
      · rw [goesOn.poisoned, holds.notPoisoned]
        exact writable _
  | drops queued fewer =>
      rw [returned _ _ _ answered]
      refine ⟨current, accounted.pendingBatches, accounted.pendingBytes, fun none => ?_, ?_⟩
      · exact absurd none Bool.false_ne_true
      · change Settled _ _ p.poisoned _
        rw [holds.notPoisoned]
        refine unpoisoned.drop rfl rfl rfl
          ⟨⟨queue.files, queue.bytes, queue.pendingBatches, queue.pendingBytes⟩,
            fun name member batch => ?_⟩
        exact names queued name (fewer name member) batch
  | poisons =>
      rw [returned _ _ _ answered]
      refine ⟨current, accounted.pendingBatches, accounted.pendingBytes, fun none => ?_, ?_⟩
      · exact absurd none Bool.false_ne_true
      · exact (writable next.names).answer rfl rfl PersistResult.noConfusion refused
          (fun _ => rfl) fun _ => ⟨rfl,
            ⟨queue.files, queue.bytes, queue.pendingBatches, queue.pendingBytes⟩,
            fun _ member => member⟩
  | queues =>
      rw [returned _ _ _ answered]
      refine ⟨current, ?_, ?_, fun none => ?_, ?_⟩
      · change ledger.health.pendingBatches + 1 = .ofNat (p.state.files ++ [job.file]).length
        rw [accounted.pendingBatches, List.length_append, UInt64.ofNat_add]
        rfl
      · change ledger.health.pendingBytes + .ofNat job.file.bytes = .ofNat job.nextBytes
        rw [accounted.pendingBytes, holds.nextBytes, totalBytes_append, running.bytes,
          UInt64.ofNat_add]
        rfl
      · exact absurd none Bool.false_ne_true
      · change Settled _ _ p.poisoned _
        rw [holds.notPoisoned]
        exact (writable next.names).answer rfl rfl PersistResult.noConfusion refused
          (fun same => same) PersistResult.noConfusion

theorem bytes_le_totalBytes {files : List OutboxFile} {file : OutboxFile} (member : file ∈ files) :
    file.bytes ≤ totalBytes files :=
  List.single_le_sum (fun _ _ => Nat.zero_le _) _ (List.mem_map_of_mem member)

/-- A step of the delivery loop. -/
theorem Accounted.work (accounted : Accounted ledger p) {extra : List OutboxFile}
    (running : Running config ledger.machine p extra) {action : WorkAction} {next : Machine}
    (acted : workStep ledger.machine p action = some next) :
    ∃ later, next.process = some later ∧
      Accounted { ledger with machine := next, health := worked ledger.health p action } later := by
  obtain ⟨later, works⟩ := work_cases ledger.health (delivers_of_workStep acted)
  refine ⟨later, works.process, ?_⟩
  rcases works.queue with ⟨state, counted⟩ | ⟨free, named, removed, found, counted, state⟩
  · rw [counted]
    refine ⟨?_, ?_, fun isJob => ?_, ?_⟩
    · rw [state]
      exact accounted.pendingBatches
    · rw [state]
      exact accounted.pendingBytes
    · rw [works.persister] at isJob ⊢
      obtain ⟨queue, names⟩ := accounted.held isJob
      refine ⟨⟨(congrArg OutboxState.files state).trans queue.files,
        (congrArg OutboxState.bytes state).trans queue.bytes, queue.pendingBatches,
        queue.pendingBytes⟩, fun queued name member batch => ?_⟩
      exact names queued name (works.names name member) batch
    · rw [works.poisoned]
      exact accounted.settled.mono rfl rfl works.names
  · have member := List.mem_of_find?_eq_some found
    have positive := List.length_pos_of_mem member
    have within : removed.bytes ≤ p.state.bytes := by
      rw [running.bytes]
      exact bytes_le_totalBytes member
    rw [counted]
    refine ⟨?_, ?_, fun isJob => ?_, ?_⟩
    · change ledger.health.pendingBatches - 1 = .ofNat later.state.files.length
      have isNamed := List.find?_some found
      rw [accounted.pendingBatches, state, List.length_eraseP_of_mem member isNamed,
        UInt64.ofNat_sub positive]
      rfl
    · change ledger.health.pendingBytes - .ofNat removed.bytes = .ofNat later.state.bytes
      rw [accounted.pendingBytes, state, UInt64.ofNat_sub within]
    · rw [works.persister, free] at isJob
      exact absurd isJob Bool.false_ne_true
    · rw [works.poisoned]
      exact accounted.settled.mono rfl rfl works.names

/-- A new process has the counters of the queue that it found. -/
theorem accounted_opened {m : Machine} (free : p.persister.job = none) :
    Accounted ({ Ledger.idle m with health := .opened p.state } : Ledger Event) p where
  pendingBatches := rfl
  pendingBytes := rfl
  held := fun isJob => by
    rw [free] at isJob
    exact absurd isJob Bool.false_ne_true
  settled := Settled.nil p.state

theorem machine_persist (p : Process) (events : List Event) :
    (ledger.persist encode p events).machine = ledger.machine := by
  unfold Ledger.persist
  dsimp only
  split
  · rfl
  · split
    · rfl
    · split
      · rfl
      · rfl

/-- Every step of the ledger is one of the machine, or leaves the machine alone. -/
theorem step_machine {call : LedgerCall Event}
    (stepped : ledger.step encode config call = some after) :
    after.machine = ledger.machine ∨
      ∃ action, step encode config ledger.machine action = some after.machine := by
  cases call with
  | persist events =>
      obtain ⟨p, _, rfl⟩ := Option.map_eq_some_iff.mp stepped
      exact Or.inl (machine_persist p events)
  | lock index now id =>
      obtain ⟨p, current, stepped⟩ := Option.bind_eq_some_iff.mp stepped
      obtain ⟨events, _, stepped⟩ := Option.bind_eq_some_iff.mp stepped
      obtain ⟨batch, _, stepped⟩ := Option.bind_eq_some_iff.mp stepped
      obtain ⟨next, submitted, rfl⟩ := Option.map_eq_some_iff.mp stepped
      refine Or.inr ⟨.persist (.submit events now id), ?_⟩
      split
      · exact Option.bind_eq_some_iff.mpr ⟨p, current, submitted⟩
      · exact Option.bind_eq_some_iff.mpr ⟨p, current, submitted⟩
  | operate action =>
      obtain ⟨p, current, stepped⟩ := Option.bind_eq_some_iff.mp stepped
      obtain ⟨_, next, later, acted, _, unsettled, returned⟩ := operate_spec stepped
      refine Or.inr ⟨.persist action, Option.bind_eq_some_iff.mpr ⟨p, current, ?_⟩⟩
      cases result : settled ledger.health p.persister action with
      | none =>
          rw [unsettled result]
          exact acted
      | some outcome =>
          rw [returned _ _ _ result]
          exact acted
  | work action =>
      obtain ⟨p, current, stepped⟩ := Option.bind_eq_some_iff.mp stepped
      obtain ⟨next, acted, rfl⟩ := Option.map_eq_some_iff.mp stepped
      exact Or.inr ⟨.work action, Option.bind_eq_some_iff.mpr ⟨p, current, acted⟩⟩
  | close =>
      obtain ⟨next, acted, rfl⟩ := Option.map_eq_some_iff.mp stepped
      exact Or.inr ⟨.close, acted⟩
  | exit =>
      obtain rfl := Option.some.inj stepped
      exact Or.inr ⟨.exit, rfl⟩
  | crash survived torn =>
      obtain ⟨next, acted, rfl⟩ := Option.map_eq_some_iff.mp stepped
      exact Or.inr ⟨.crash survived torn, acted⟩
  | start listing removed succeeds =>
      obtain ⟨next, acted, rfl⟩ := Option.map_eq_some_iff.mp stepped
      refine Or.inr ⟨.start listing removed succeeds, ?_⟩
      split
      · exact acted
      · exact acted

/-- A new process starts with a free lock. -/
theorem job_of_start {m next : Machine} {listing : List (Name × File)} {removed : Name → Bool}
    {succeeds : Bool}
    (acted : step encode config m (.start listing removed succeeds) = some next)
    (current : next.process = some p) : p.persister.job = none := by
  simp only [step] at acted
  split at acted
  next stopped =>
    cases acted
    unfold start at current
    dsimp only at current
    split at current
    · cases current
      rfl
    · rw [Option.isNone_iff_eq_none.mp stopped.1] at current
      cases current
  · cases acted

/-- Every step keeps the balance. -/
theorem Balanced.step (balanced : Balanced config ledger) (someFiles : 0 < config.maxFiles)
    (someBytes : 0 < config.maxBytes) {call : LedgerCall Event}
    (stepped : ledger.step encode config call = some after) : Balanced config after := by
  have sound : Sound config after.machine := by
    rcases step_machine stepped with same | ⟨action, acted⟩
    · rw [same]
      exact balanced.sound
    · exact balanced.sound.step someFiles someBytes acted
  -- the process of the next machine is the one that the step was about
  have only : ∀ {later : Process}, after.machine.process = some later → Accounted after later →
      Balanced config after := fun current accounted =>
    ⟨sound, fun p same => Option.some.inj (current.symm.trans same) ▸ accounted⟩
  have stopped : after.machine.process = none → Balanced config after := fun none =>
    ⟨sound, fun p same => absurd (none.symm.trans same) (Option.some_ne_none p).symm⟩
  cases call with
  | persist events =>
      obtain ⟨p, current, rfl⟩ := Option.map_eq_some_iff.mp stepped
      exact only ((congrArg Machine.process (machine_persist p events)).trans current)
         ((balanced.accounted p current).persist events)
  | lock index now id =>
      obtain ⟨p, current, granted⟩ := Option.bind_eq_some_iff.mp stepped
      obtain ⟨later, process, accounted⟩ := (balanced.accounted p current).lock current granted
      exact only process accounted
  | operate action =>
      obtain ⟨p, current, operated⟩ := Option.bind_eq_some_iff.mp stepped
      obtain ⟨extra, running⟩ := balanced.sound.running current
      obtain ⟨later, process, accounted⟩ := (balanced.accounted p current).operate running operated
      exact only process accounted
  | work action =>
      obtain ⟨p, current, worked⟩ := Option.bind_eq_some_iff.mp stepped
      obtain ⟨extra, running⟩ := balanced.sound.running current
      obtain ⟨next, acted, rfl⟩ := Option.map_eq_some_iff.mp worked
      obtain ⟨later, process, accounted⟩ := (balanced.accounted p current).work running acted
      exact only process accounted
  | close =>
      obtain ⟨next, acted, rfl⟩ := Option.map_eq_some_iff.mp stepped
      obtain ⟨p, current, rfl⟩ := Option.map_eq_some_iff.mp acted
      have accounted := balanced.accounted p current
      exact only rfl ⟨accounted.pendingBatches, accounted.pendingBytes, accounted.held,
        accounted.settled⟩
  | exit =>
      obtain rfl := Option.some.inj stepped
      exact stopped rfl
  | crash survived torn =>
      obtain ⟨next, acted, rfl⟩ := Option.map_eq_some_iff.mp stepped
      simp only [Outbox.step] at acted
      split at acted
      · cases acted
        exact stopped rfl
      · cases acted
  | start listing removed succeeds =>
      obtain ⟨next, acted, rfl⟩ := Option.map_eq_some_iff.mp stepped
      cases process : next.process with
      | none =>
          rw [process] at stopped
          exact stopped process
      | some p =>
          rw [process] at only
          exact only process (accounted_opened (job_of_start acted process))

end Steps

/-! ## Runs -/

theorem balanced_new : Balanced config (Ledger.new : Ledger Event) where
  sound := sound_new
  accounted p current := absurd current (Option.some_ne_none p).symm

/-- With a cap of zero no process starts. -/
theorem process_of_zero_caps (zero : config.maxFiles = 0 ∨ config.maxBytes = 0)
    {ledger after : Ledger Event} (stopped : ledger.machine.process = none)
    {call : LedgerCall Event} (stepped : ledger.step encode config call = some after) :
    after.machine.process = none := by
  rcases step_machine stepped with same | ⟨action, acted⟩
  · rw [same]
    exact stopped
  · cases action with
    | persist action =>
        obtain ⟨p, current, _⟩ := Option.bind_eq_some_iff.mp acted
        exact absurd (stopped.symm.trans current) (Option.some_ne_none p).symm
    | work action =>
        obtain ⟨p, current, _⟩ := Option.bind_eq_some_iff.mp acted
        exact absurd (stopped.symm.trans current) (Option.some_ne_none p).symm
    | close =>
        obtain ⟨p, current, _⟩ := Option.map_eq_some_iff.mp acted
        exact absurd (stopped.symm.trans current) (Option.some_ne_none p).symm
    | exit => rw [← Option.some.inj acted]
    | crash survived torn =>
        simp only [step] at acted
        split at acted
        · rw [← Option.some.inj acted]
        · cases acted
    | start listing removed succeeds =>
        have refuses : openFiles config listing = .error .zeroCaps := if_pos zero
        simp only [step] at acted
        split at acted
        · rw [← Option.some.inj acted]
          unfold start
          rw [refuses]
          cases succeeds with
          | false => exact stopped
          | true => exact stopped
        · cases acted

/--
In every state that calls, operations, failures, crashes and restarts lead to,
the queue is within the caps and its counters mirror it; every call that
returned `Ok(false)` left the queue as it found it, without a new batch file, and
is counted once with its events; and after a synchronisation that failed behind
a rename, which left the queue alone, every later call returned an error and no
file was created.
-/
theorem failed_admissions_restore (encode : Event → Option Bytes)
    {calls : List (LedgerCall Event)} {ledger : Ledger Event}
    (executed : Runs.run (Ledger.step encode config) Ledger.new calls = some ledger) {p : Process}
    (current : ledger.machine.process = some p) :
    (p.state.bytes = totalBytes p.state.files ∧ p.state.bytes ≤ config.maxBytes ∧
      p.state.files.length ≤ config.maxFiles ∧
      ledger.health.pendingBatches = .ofNat p.state.files.length ∧
      ledger.health.pendingBytes = .ofNat p.state.bytes ∧
      p.state.files.Pairwise fun earlier later => earlier.order < later.order) ∧
    ((∀ returned ∈ ledger.returns, returned.result = .dropped → returned.Restored) ∧
      ledger.health.batchesDropped = .ofNat (drops ledger.returns).length ∧
      ledger.health.eventsDropped = .ofNat ((drops ledger.returns).map PersistReturn.events).sum) ∧
    ∀ before returned later, ledger.returns = before ++ returned :: later →
      returned.result = .ambiguous →
      returned.atLock.SameQueue returned.atReturn ∧
      (∀ other ∈ later, other.result = .poisoned) ∧
      ∀ name ∈ ledger.machine.names, name ∈ returned.atReturn.names := by
  by_cases zero : config.maxFiles = 0 ∨ config.maxBytes = 0
  · have stopped : ledger.machine.process = none :=
      Runs.run_preserves (fun ledger : Ledger Event => ledger.machine.process = none)
        (fun _ _ _ stopped stepped => process_of_zero_caps zero stopped stepped) rfl executed
    exact absurd (stopped.symm.trans current) (Option.some_ne_none p).symm
  · obtain ⟨someFiles, someBytes⟩ := not_or.mp zero
    have balanced : Balanced config ledger :=
      Runs.run_preserves (Balanced config)
        (fun _ _ _ balanced stepped => balanced.step (Nat.pos_of_ne_zero someFiles)
          (Nat.pos_of_ne_zero someBytes) stepped) balanced_new executed
    obtain ⟨extra, running⟩ := balanced.sound.running current
    have accounted := balanced.accounted p current
    have queue : Queue config ledger.machine.log p.state.files :=
      running.stored.queue.sublist (List.sublist_append_left _ _)
    have settled := accounted.settled
    refine ⟨⟨running.bytes, running.bytes ▸ queue.total, queue.count, accounted.pendingBatches,
      accounted.pendingBytes, queue.ordered.imp And.left⟩,
      ⟨settled.restored, settled.batchesDropped, settled.eventsDropped⟩, ?_⟩
    intro before returned later split ambiguous
    have member : returned ∈ ledger.returns := by
      rw [split]
      exact List.mem_append_right _ List.mem_cons_self
    have ordered := settled.afterwards
    rw [split] at ordered
    have behind := (List.pairwise_cons.mp (List.pairwise_append.mp ordered).2.1).1
    obtain ⟨_, queue, within⟩ := settled.ambiguous returned member ambiguous
    exact ⟨queue, fun other inLater => behind other inLater ambiguous, within⟩

/-- A batch whose temporary file cannot be created, one whose rename is not synchronised, and a
third call. -/
def failingCalls : List (LedgerCall UInt8) :=
  [.start [(lockName, { content := [], synced := false, serial := 0 })] (fun _ => false) true,
    .persist [7, 8], .lock 0 1000 "a".toList, .operate (.createTemp false),
    .operate (.removeTemp false),
    .persist [9], .lock 0 900 "b".toList, .operate (.createTemp true),
    .operate (.writeTemp true []), .operate (.syncTemp true), .operate (.rename true),
    .persist [5], .operate (.syncDirectory false), .lock 0 2000 "c".toList]

theorem failed_admissions_restore_sample :
    ∃ ledger p, Runs.run (Ledger.step (fun byte => some [byte]) sampleConfig) Ledger.new
        failingCalls = some ledger ∧ ledger.machine.process = some p ∧
      ledger.returns.map PersistReturn.result = [.dropped, .ambiguous, .poisoned] ∧
      ledger.health.batchesDropped = .ofNat (drops ledger.returns).length ∧
      p.state.bytes = totalBytes p.state.files := by
  have outcome : (Runs.run (Ledger.step (fun byte => some [byte]) sampleConfig) Ledger.new
      failingCalls).map (fun ledger => (ledger.machine.process.isSome,
        ledger.returns.map PersistReturn.result)) =
          some (true, [.dropped, .ambiguous, .poisoned]) := by decide +kernel
  obtain ⟨ledger, executed, same⟩ := Option.map_eq_some_iff.mp outcome
  obtain ⟨started, results⟩ := Prod.mk.inj same
  obtain ⟨p, current⟩ := Option.isSome_iff_exists.mp started
  have restored := failed_admissions_restore (fun byte => some [byte]) executed current
  exact ⟨ledger, p, executed, current, results, restored.2.1.2.1, restored.1.1⟩

end MarketBenchmark.Outbox
