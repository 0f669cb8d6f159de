import MarketBenchmark.Collector.Publisher

/-!
# What the outbox keeps is what was published

The batches that a process has its outbox accept are the rows of its committed
publications, in their order, but for one that is accepted and not yet
committed.  So the files of a process tile its time, count each cohort once, and
no rejected window is among them.
-/

namespace MarketBenchmark

open Foundation.HashMaps
open Foundation.Runs
open Outbox

/-! ## Calls of the outbox -/

section Calls

variable {Event : Type} {encode : Event → Option Bytes} {config : OutboxConfig}

/-- The batch of a serial number is the encoding of the events. -/
def Stores (encode : Event → Option Bytes) (log : List Batch) (serial : Nat)
    (events : List Event) : Prop :=
  ∃ batch, log[serial]? = some batch ∧ batchOf encode events = some batch

theorem Stores.mono {log later : List Batch} {serial : Nat} {events : List Event}
    (stores : Stores encode log serial events) (grows : log <+: later) :
    Stores encode later serial events := by
  obtain ⟨batch, logged, built⟩ := stores
  obtain ⟨more, rfl⟩ := grows
  exact ⟨batch, (List.getElem?_append_left (List.getElem?_eq_some_iff.mp logged).1).trans logged,
    built⟩

/-- A call that is not refused gets a job for its batch. -/
theorem submit_admitted {m : Machine} {p : Process} {events : List Event} {batch : Batch}
    (nonempty : events ≠ []) (built : batchOf encode events = some batch) {now : Nat}
    (admitted : refusal config p batch now = none) (id : List Char) :
    ∃ job, job.body = batch.body ∧ job.file.events = batch.events ∧
      Outbox.submit encode config m p events now id =
        { m with
          log := m.log ++ [batch]
          process := some { p with persister := .creating job } } := by
  unfold refusal at admitted
  dsimp only at admitted
  split_ifs at admitted with poisoned room exhausted
  have writable : ¬(p.poisoned = true ∨ events = []) := not_or.mpr ⟨poisoned, nonempty⟩
  cases ordered : nextOrder p.state now with
  | none => exact absurd (congrArg Option.isNone ordered) exhausted
  | some order =>
      unfold Outbox.submit admitBatch
      dsimp only
      rw [if_neg writable, built]
      dsimp only
      rw [if_neg room, ordered]
      exact ⟨_, rfl, rfl, rfl⟩

/-- What an operation leaves of the log and of the accepted batches, by its return. -/
structure Answers (m next : Machine) (p after : Process) (job : Job)
    (outcome : Option (Job × IngestHealth × PersistResult)) : Prop where
  log : next.log = m.log
  goesOn : outcome = none → after.persister.job = some job ∧ next.accepted = m.accepted
  returns : ∀ other health result, outcome = some (other, health, result) →
    after.persister.job = none ∧ result ≠ .nothing ∧
      (result = .persisted → next.accepted = m.accepted ++ [job.file.serial]) ∧
      (result ≠ .persisted → next.accepted = m.accepted)

theorem answers_of_operates {m next : Machine} {p : Process} {action : PersistAction Event}
    (operates : Operates m p action next) (health : IngestHealth) :
    ∃ job after, p.persister.job = some job ∧ next.process = some after ∧
      Answers m next p after job (settled health p.persister action) := by
  cases operates with
  | @created job stage _ =>
      rw [stage]
      exact ⟨job, _, rfl, rfl, rfl, fun _ => ⟨rfl, rfl⟩, nofun⟩
  | @uncreated job _ stage =>
      rw [stage]
      exact ⟨job, _, rfl, rfl, rfl, fun _ => ⟨rfl, rfl⟩, nofun⟩
  | @written job _ stage =>
      rw [stage]
      exact ⟨job, _, rfl, rfl, rfl, fun _ => ⟨rfl, rfl⟩, nofun⟩
  | @torn job _ stage =>
      rw [stage]
      exact ⟨job, _, rfl, rfl, rfl, fun _ => ⟨rfl, rfl⟩, nofun⟩
  | @synced job _ stage _ =>
      rw [stage]
      exact ⟨job, _, rfl, rfl, rfl, fun _ => ⟨rfl, rfl⟩, nofun⟩
  | @unsynced job _ stage =>
      rw [stage]
      exact ⟨job, _, rfl, rfl, rfl, fun _ => ⟨rfl, rfl⟩, nofun⟩
  | @removed job stage =>
      rw [stage]
      refine ⟨job, _, rfl, rfl, rfl, nofun, ?_⟩
      rintro _ _ _ ⟨⟩
      exact ⟨rfl, nofun, nofun, fun _ => rfl⟩
  | @unremoved job stage =>
      rw [stage]
      refine ⟨job, _, rfl, rfl, rfl, nofun, ?_⟩
      rintro _ _ _ ⟨⟩
      exact ⟨rfl, nofun, nofun, fun _ => rfl⟩
  | @renamed job _ stage _ =>
      rw [stage]
      exact ⟨job, _, rfl, rfl, rfl, fun _ => ⟨rfl, rfl⟩, nofun⟩
  | @unrenamed job _ stage =>
      rw [stage]
      exact ⟨job, _, rfl, rfl, rfl, fun _ => ⟨rfl, rfl⟩, nofun⟩
  | @settled job stage =>
      rw [stage]
      exact ⟨job, _, rfl, rfl, rfl, fun _ => ⟨rfl, rfl⟩, nofun⟩
  | @unsettled job stage =>
      rw [stage]
      refine ⟨job, _, rfl, rfl, rfl, nofun, ?_⟩
      rintro _ _ _ ⟨⟩
      exact ⟨rfl, nofun, nofun, fun _ => rfl⟩
  | @pushed job stage =>
      rw [stage]
      refine ⟨job, _, rfl, rfl, rfl, nofun, ?_⟩
      rintro _ _ _ ⟨⟩
      exact ⟨rfl, nofun, fun _ => rfl, fun other => absurd rfl other⟩

/-- The delivery loop accepts nothing and holds no job. -/
theorem frame_of_delivers {m next : Machine} {p : Process} {action : WorkAction}
    (delivers : Delivers m p action next) :
    ∃ after, next.process = some after ∧ after.persister = p.persister ∧ next.log = m.log ∧
      next.accepted = m.accepted := by
  cases delivers with
  | _ => exact ⟨_, rfl, rfl, rfl, rfl⟩

end Calls

/-! ## The submission and its call -/

variable {encode : LatencyWindowEvent → Option Bytes} {outbox : OutboxConfig}

/-- Where the call of a submission is, and what it has had accepted that is not committed. -/
inductive Awaits (encode : LatencyWindowEvent → Option Bytes) (ledger : Ledger LatencyWindowEvent)
    (p : Process) : Option Submission → List Nat → Prop where
  | idle (waiting : ledger.waiting = []) (free : p.persister.job = none) :
      Awaits encode ledger p none []
  | waiting {submission : Submission} (nonempty : submission.rows ≠ [])
      (waiting : ledger.waiting = [submission.rows]) (free : p.persister.job = none)
      (returned : ledger.returns.length = submission.returned) :
      Awaits encode ledger p (some submission) []
  | persisting {submission : Submission} {job : Job} (nonempty : submission.rows ≠ [])
      (waiting : ledger.waiting = []) (held : p.persister.job = some job)
      (built : batchOf encode submission.rows =
        some { body := job.body, events := job.file.events })
      (returned : ledger.returns.length = submission.returned) :
      Awaits encode ledger p (some submission) []
  | refused {submission : Submission} {answer : PersistReturn} (waiting : ledger.waiting = [])
      (free : p.persister.job = none)
      (answered : ledger.returns[submission.returned]? = some answer)
      (refused : answer.result ≠ .persisted)
      (nothing : answer.result = .nothing → submission.rows = []) :
      Awaits encode ledger p (some submission) []
  | persisted {submission : Submission} {answer : PersistReturn} {serial : Nat}
      (nonempty : submission.rows ≠ []) (waiting : ledger.waiting = [])
      (free : p.persister.job = none)
      (answered : ledger.returns[submission.returned]? = some answer)
      (accepted : answer.result = .persisted)
      (stores : Stores encode ledger.machine.log serial submission.rows) :
      Awaits encode ledger p (some submission) [serial]

theorem Awaits.length_le {ledger : Ledger LatencyWindowEvent} {p : Process}
    {submission : Option Submission} {late : List Nat}
    (awaits : Awaits encode ledger p submission late) : late.length ≤ 1 := by
  cases awaits <;> simp

theorem Awaits.nil_of_idle {ledger : Ledger LatencyWindowEvent} {p : Process} {late : List Nat}
    (awaits : Awaits encode ledger p none late) : late = [] := by
  cases awaits
  rfl

/-- The batches accepted since the start are the publications, and the one that is awaited. -/
structure Matched (encode : LatencyWindowEvent → Option Bytes) (base : List Nat)
    (ledger : Ledger LatencyWindowEvent) (submission : Option Submission)
    (published : List Benchmark.Publication) : Prop where
  awaits : ∃ p serials late, ledger.machine.process = some p ∧
    Awaits encode ledger p submission late ∧
    ledger.machine.accepted = base ++ serials ++ late ∧
    List.Forall₂ (fun serial publication => Stores encode ledger.machine.log serial publication.rows)
      serials published

/-- The call returned: the answer is the next of the ledger. -/
theorem answered_of_length {returns : List PersistReturn} {answer : PersistReturn} {count : Nat}
    (returned : returns.length = count) : (returns ++ [answer])[count]? = some answer := by
  rw [← returned, List.getElem?_concat_length]

namespace Matched

variable {base : List Nat} {ledger after : Ledger LatencyWindowEvent}
  {submission : Option Submission} {published : List Benchmark.Publication}

theorem persist (matched : Matched encode base ledger none published) {next : Submission}
    (returned : ledger.returns.length = next.returned)
    (stepped : ledger.step encode outbox (.persist next.rows) = some after) :
    Matched encode base after (some next) published := by
  obtain ⟨p, serials, late, current, awaits, accepted, stored⟩ := matched.awaits
  cases awaits with
  | idle waiting free =>
      obtain ⟨q, running, rfl⟩ := Option.map_eq_some_iff.mp stepped
      obtain rfl := Option.some.inj (current.symm.trans running)
      unfold Ledger.persist
      dsimp only
      split_ifs with poisoned empty unencodable
      · exact ⟨p, serials, [], current, .refused waiting free (answered_of_length returned)
          PersistResult.noConfusion PersistResult.noConfusion, accepted, stored⟩
      · exact ⟨p, serials, [], current, .refused waiting free (answered_of_length returned)
          PersistResult.noConfusion (fun _ => empty), accepted, stored⟩
      · exact ⟨p, serials, [], current, .refused waiting free (answered_of_length returned)
          PersistResult.noConfusion PersistResult.noConfusion, accepted, stored⟩
      · refine ⟨p, serials, [], current, .waiting empty ?_ free returned, accepted, stored⟩
        change ledger.waiting ++ [next.rows] = [next.rows]
        rw [waiting, List.nil_append]

theorem lock (matched : Matched encode base ledger submission published) {now : Nat}
    {id : List Char} (stepped : ledger.step encode outbox (.lock 0 now id) = some after) :
    Matched encode base after submission published := by
  obtain ⟨p, serials, late, current, awaits, accepted, stored⟩ := matched.awaits
  obtain ⟨q, running, stepped⟩ := Option.bind_eq_some_iff.mp stepped
  obtain rfl := Option.some.inj (current.symm.trans running)
  obtain ⟨events, first, stepped⟩ := Option.bind_eq_some_iff.mp stepped
  obtain ⟨batch, built, stepped⟩ := Option.bind_eq_some_iff.mp stepped
  obtain ⟨next, submitted, rfl⟩ := Option.map_eq_some_iff.mp stepped
  cases awaits with
  | @waiting submission nonempty waiting free returned =>
      rw [waiting] at first
      obtain rfl := Option.some.inj first
      have idle : p.persister = .idle := by
        cases stage : p.persister with
        | idle => rfl
        | _ => rw [stage] at free; cases free
      simp only [persistStep, idle, Option.some.injEq] at submitted
      subst submitted
      have emptied : ledger.waiting.eraseIdx 0 = [] := by
        rw [waiting]
        rfl
      cases refused : refusal outbox p batch now with
      | none =>
          obtain ⟨job, body, events, same⟩ := submit_admitted (m := ledger.machine) nonempty built
            refused id
          rw [same]
          refine ⟨_, serials, [], rfl, .persisting nonempty emptied rfl ?_ returned, accepted, ?_⟩
          · rw [built, body, events]
          · exact stored.imp fun _ _ stores => stores.mono (List.prefix_append _ _)
      | some result =>
          have unchanged : Outbox.submit encode outbox ledger.machine p submission.rows now id =
              ledger.machine := by
            rcases submit_cases encode outbox ledger.machine p built now id with
              same | ⟨admitted, _⟩
            · exact same
            · rw [admitted] at refused
              cases refused
          have other : result ≠ .persisted ∧ result ≠ .nothing := by
            rcases refusal_cases refused with ⟨rfl, _⟩ | ⟨rfl | rfl, _⟩
            · exact ⟨PersistResult.noConfusion, PersistResult.noConfusion⟩
            · exact ⟨PersistResult.noConfusion, PersistResult.noConfusion⟩
            · exact ⟨PersistResult.noConfusion, PersistResult.noConfusion⟩
          rw [unchanged]
          exact ⟨p, serials, [], current, .refused emptied free (answered_of_length returned) other.1
            fun nothing => absurd nothing other.2, accepted, stored⟩
  | idle waiting _ => rw [waiting] at first; cases first
  | persisting _ waiting _ _ _ => rw [waiting] at first; cases first
  | refused waiting _ _ _ _ => rw [waiting] at first; cases first
  | persisted _ waiting _ _ _ _ => rw [waiting] at first; cases first

/-- An operation goes on, or it returns; a batch that it queues is the one that was submitted. -/
theorem operate (matched : Matched encode base ledger submission published)
    (sound : Sound outbox ledger.machine) {action : PersistAction LatencyWindowEvent}
    (stepped : ledger.step encode outbox (.operate action) = some after) :
    Matched encode base after submission published := by
  obtain ⟨p, serials, late, current, awaits, accepted, stored⟩ := matched.awaits
  obtain ⟨q, running, stepped⟩ := Option.bind_eq_some_iff.mp stepped
  obtain rfl := Option.some.inj (current.symm.trans running)
  obtain ⟨operation, next, later, acted, process, unsettled, returned⟩ := operate_spec stepped
  obtain ⟨job, _, isJob, same, accepts⟩ :=
    answers_of_operates (operates_of_persistStep operation acted) ledger.health
  obtain rfl := Option.some.inj (process.symm.trans same)
  obtain ⟨extra, holds⟩ := sound.running current
  have logged := (holds.job job isJob).batch
  cases awaits with
  | @persisting submission own nonempty waiting held built count =>
      obtain rfl := Option.some.inj (isJob.symm.trans held)
      have stores : Stores encode next.log job.file.serial submission.rows :=
        ⟨_, accepts.log.symm ▸ logged, built⟩
      have kept : List.Forall₂ (fun serial publication =>
          Stores encode next.log serial publication.rows) serials published :=
        accepts.log.symm ▸ stored
      cases outcome : settled ledger.health p.persister action with
      | none =>
          obtain ⟨goesOn, unaccepted⟩ := accepts.goesOn outcome
          rw [unsettled outcome]
          exact ⟨later, serials, [], process, .persisting nonempty waiting goesOn built count,
            unaccepted.trans accepted, kept⟩
      | some settlement =>
          obtain ⟨other, health, result⟩ := settlement
          obtain ⟨free, something, persisted, unpersisted⟩ :=
            accepts.returns other health result outcome
          rw [returned other health result outcome]
          by_cases isPersisted : result = .persisted
          · refine ⟨later, serials, [job.file.serial], process,
              .persisted nonempty waiting free (answered_of_length count) isPersisted stores, ?_,
              kept⟩
            rw [List.append_nil] at accepted
            exact (persisted isPersisted).trans (congrArg (· ++ [job.file.serial]) accepted)
          · exact ⟨later, serials, [], process,
              .refused waiting free (answered_of_length count) isPersisted
                fun nothing => absurd nothing something,
              (unpersisted isPersisted).trans accepted, kept⟩
  | idle _ free => rw [free] at isJob; cases isJob
  | waiting _ _ free _ => rw [free] at isJob; cases isJob
  | refused _ free _ _ _ => rw [free] at isJob; cases isJob
  | persisted _ _ free _ _ _ => rw [free] at isJob; cases isJob

theorem work (matched : Matched encode base ledger submission published) {action : WorkAction}
    (stepped : ledger.step encode outbox (.work action) = some after) :
    Matched encode base after submission published := by
  obtain ⟨p, serials, late, current, awaits, accepted, stored⟩ := matched.awaits
  obtain ⟨q, running, stepped⟩ := Option.bind_eq_some_iff.mp stepped
  obtain rfl := Option.some.inj (current.symm.trans running)
  obtain ⟨next, worked, rfl⟩ := Option.map_eq_some_iff.mp stepped
  obtain ⟨later, process, persister, log, kept⟩ := frame_of_delivers (delivers_of_workStep worked)
  refine ⟨later, serials, late, process, ?_, kept.trans accepted, log.symm ▸ stored⟩
  cases awaits with
  | idle waiting free => exact .idle waiting (persister ▸ free)
  | waiting nonempty waiting free returned =>
      exact .waiting nonempty waiting (persister ▸ free) returned
  | persisting nonempty waiting held built returned =>
      exact .persisting nonempty waiting (persister ▸ held) built returned
  | refused waiting free answered refused nothing =>
      exact .refused waiting (persister ▸ free) answered refused nothing
  | persisted nonempty waiting free answered isPersisted stores =>
      exact .persisted nonempty waiting (persister ▸ free) answered isPersisted (log.symm ▸ stores)

end Matched

/-! ## The answer -/

/-- A process with coins commits what it submitted, unless there was nothing to submit. -/
theorem committed_rows {before prepared : Benchmark} {cycle : Cycle}
    {rows : List LatencyWindowEvent} (coins : before.config.coins ≠ [])
    (windowed : before.windowEvents cycle.order cycle.now cycle.wallNowMs cycle.signals
      cycle.clock = some (prepared, rows)) :
    (before.committed (cycle.activity true)).map Benchmark.Publication.rows =
      if rows = [] then [] else [rows] := by
  unfold Cycle.activity
  rw [Benchmark.committed_eq windowed]
  rcases Benchmark.windowEvents_passed windowed with
    ⟨same, empty⟩ | ⟨wallAdvances, advances, same, rowsEq⟩
  · rw [same, Benchmark.commitPreparedPublication_of_none (Benchmark.prepare_prepared cycle.now),
      if_pos empty]
    rfl
  · have nonempty : rows ≠ [] := by
      obtain ⟨coin, others, split⟩ := List.exists_cons_of_ne_nil coins
      obtain ⟨provider, more, active⟩ :=
        List.exists_cons_of_ne_nil (before.prepare cycle.order cycle.now).config.providers_ne_nil
      rw [rowsEq]
      unfold Benchmark.preparedRows
      rw [active, Benchmark.prepare_config, split]
      exact List.cons_ne_nil _ _
    rw [same, Benchmark.commitPreparedPublication_of_some, if_neg nonempty]
    · rfl
    · rwa [Benchmark.prepare_outcomeCursorWallMs]
    · rwa [Benchmark.prepare_outcomeCursor]

/-- The main loop commits what was accepted for it. -/
theorem Matched.settle {base : List Nat} {ledger : Ledger LatencyWindowEvent}
    {submission : Submission} {published : List Benchmark.Publication} {benchmark : Benchmark}
    (matched : Matched encode base ledger (some submission) published) {answer : PersistReturn}
    (answered : ledger.returns[submission.returned]? = some answer) {accepted : Bool}
    (result : answer.result.accepted = some accepted) (coins : submission.before.config.coins ≠ [])
    (windowed : submission.before.windowEvents submission.cycle.order submission.cycle.now
      submission.cycle.wallNowMs submission.cycle.signals submission.cycle.clock =
      some (benchmark, submission.rows)) :
    Matched encode base ledger none
      (published ++ submission.before.committed (submission.cycle.activity accepted)) := by
  obtain ⟨p, serials, late, current, awaits, kept, stored⟩ := matched.awaits
  have committed := committed_rows coins windowed
  cases awaits with
  | waiting _ _ _ returned =>
      rw [← returned, List.getElem?_length] at answered
      cases answered
  | persisting _ _ _ _ returned =>
      rw [← returned, List.getElem?_length] at answered
      cases answered
  | refused waiting free found refused nothing =>
      obtain rfl := Option.some.inj (answered.symm.trans found)
      have none : submission.before.committed (submission.cycle.activity accepted) = [] := by
        cases accepted with
        | false => rfl
        | true =>
            have isNothing : answer.result = .nothing := by
              cases outcome : answer.result with
              | persisted => exact absurd outcome refused
              | nothing => rfl
              | _ => rw [outcome] at result; cases result
            rw [if_pos (nothing isNothing)] at committed
            exact List.map_eq_nil_iff.mp committed
      rw [none, List.append_nil]
      exact ⟨p, serials, [], current, .idle waiting free, kept, stored⟩
  | @persisted _ other serial nonempty waiting free found isPersisted stores =>
      obtain rfl := Option.some.inj (answered.symm.trans found)
      rw [isPersisted] at result
      obtain rfl := Option.some.inj result
      rw [if_neg nonempty] at committed
      obtain ⟨publication, one, rows⟩ := List.map_eq_singleton_iff.mp committed
      refine ⟨p, serials ++ [serial], [], current, .idle waiting free, ?_, ?_⟩
      · rw [List.append_nil, kept, List.append_assoc]
      · rw [one]
        exact List.rel_append stored (.cons (rows.symm ▸ stores) .nil)

namespace Publisher

variable {config : BenchmarkConfig} {base : List Nat} {publisher after : Publisher}

/-- The invariant of the main loop with its outbox. -/
structure Publishes (encode : LatencyWindowEvent → Option Bytes) (outbox : OutboxConfig)
    (config : BenchmarkConfig) (base : List Nat) (publisher : Publisher) : Prop where
  sound : Sound outbox publisher.ledger.machine
  matched : Matched encode base publisher.ledger publisher.submission publisher.published
  configured : publisher.benchmark.config = config
  tallied : publisher.submission = none →
    Benchmark.Tallied publisher.published publisher.benchmark
  prepared : ∀ submission, publisher.submission = some submission →
    Benchmark.Tallied publisher.published submission.before ∧ submission.before.config = config ∧
      submission.before.windowEvents submission.cycle.order submission.cycle.now
        submission.cycle.wallNowMs submission.cycle.signals submission.cycle.clock =
        some (publisher.benchmark, submission.rows)

namespace Publishes

theorem sound_step (holds : Publishes encode outbox config base publisher)
    (someFiles : 0 < outbox.maxFiles) (someBytes : 0 < outbox.maxBytes)
    {call : LedgerCall LatencyWindowEvent} {ledger : Ledger LatencyWindowEvent}
    (stepped : publisher.ledger.step encode outbox call = some ledger) :
    Sound outbox ledger.machine := by
  rcases step_machine stepped with same | ⟨action, acted⟩
  · exact same.symm ▸ holds.sound
  · exact holds.sound.step someFiles someBytes acted

/-- The outbox goes on; the benchmark and the submission stay. -/
theorem advance (holds : Publishes encode outbox config base publisher)
    (someFiles : 0 < outbox.maxFiles) (someBytes : 0 < outbox.maxBytes)
    {call : LedgerCall LatencyWindowEvent} {ledger : Ledger LatencyWindowEvent}
    (stepped : publisher.ledger.step encode outbox call = some ledger)
    (matched : Matched encode base ledger publisher.submission publisher.published) :
    Publishes encode outbox config base { publisher with ledger := ledger } where
  sound := holds.sound_step someFiles someBytes stepped
  matched := matched
  configured := holds.configured
  tallied := holds.tallied
  prepared := holds.prepared

/-- The main loop records an event or ticks. -/
theorem main (holds : Publishes encode outbox config base publisher)
    (free : publisher.submission = none) {activity : Benchmark.Activity}
    (nothing : publisher.benchmark.committed activity = []) {benchmark : Benchmark}
    (acted : publisher.benchmark.act activity = some benchmark) :
    Publishes encode outbox config base { publisher with benchmark := benchmark } where
  sound := holds.sound
  matched := holds.matched
  configured := (Benchmark.run_config acted).trans holds.configured
  tallied _ := by
    have tallied := (holds.tallied free).act acted
    rwa [nothing, List.append_nil] at tallied
  prepared submission pending := by
    exact absurd (free.symm.trans pending) (Option.some_ne_none submission).symm

theorem submit (holds : Publishes encode outbox config base publisher)
    (someFiles : 0 < outbox.maxFiles) (someBytes : 0 < outbox.maxBytes)
    (free : publisher.submission = none) {cycle : Cycle}
    (submitted : publisher.submit encode outbox cycle = some after) :
    Publishes encode outbox config base after := by
  obtain ⟨⟨benchmark, rows⟩, windowed, submitted⟩ := Option.bind_eq_some_iff.mp submitted
  obtain ⟨ledger, stepped, rfl⟩ := Option.map_eq_some_iff.mp submitted
  have matched := holds.matched
  rw [free] at matched
  have sameConfig : benchmark.config = config := by
    have stepped : publisher.benchmark.step (.windowEvents cycle.order cycle.now cycle.wallNowMs
        cycle.signals cycle.clock) = some benchmark :=
      Option.map_eq_some_iff.mpr ⟨_, windowed, rfl⟩
    exact (Benchmark.step_config _ stepped).trans holds.configured
  refine ⟨holds.sound_step someFiles someBytes stepped, matched.persist rfl stepped, sameConfig,
    fun pending => absurd pending (Option.some_ne_none _), fun submission pending => ?_⟩
  obtain rfl := Option.some.inj pending
  exact ⟨holds.tallied free, holds.configured, windowed⟩

/-- The answer commits the publication whose batch was accepted, or nothing. -/
theorem settle (holds : Publishes encode outbox config base publisher)
    (coins : config.coins ≠ []) {submission : Submission}
    (pending : publisher.submission = some submission) {answer : PersistReturn}
    (answered : publisher.ledger.returns[submission.returned]? = some answer) {accepted : Bool}
    (result : answer.result.accepted = some accepted) :
    Publishes encode outbox config base (publisher.settle submission accepted) := by
  obtain ⟨tallied, configured, windowed⟩ := holds.prepared submission pending
  have acted : submission.before.act (submission.cycle.activity accepted) =
      some (publisher.settle submission accepted).benchmark := by
    refine Option.bind_eq_some_iff.mpr ⟨publisher.benchmark,
      Option.map_eq_some_iff.mpr ⟨_, windowed, rfl⟩, ?_⟩
    cases accepted <;> rfl
  refine ⟨holds.sound, ?_, (Benchmark.run_config acted).trans configured,
    fun _ => tallied.act acted, fun other again => ?_⟩
  · have matched := holds.matched
    rw [pending] at matched
    exact matched.settle answered result (configured.symm ▸ coins) windowed
  · exact absurd again (Option.some_ne_none other).symm

/-- Every action keeps the invariant. -/
theorem step (holds : Publishes encode outbox config base publisher)
    (someFiles : 0 < outbox.maxFiles) (someBytes : 0 < outbox.maxBytes) (coins : config.coins ≠ [])
    {action : PublisherAction} (stepped : publisher.step encode outbox action = some after) :
    Publishes encode outbox config base after := by
  cases action with
  | record order event =>
      simp only [Publisher.step] at stepped
      split at stepped
      · cases stepped
      next free =>
        obtain ⟨benchmark, acted, rfl⟩ := Option.map_eq_some_iff.mp stepped
        exact holds.main (Option.not_isSome_iff_eq_none.mp free) rfl acted
  | tick order now =>
      simp only [Publisher.step] at stepped
      split at stepped
      · cases stepped
      next free =>
        obtain ⟨benchmark, acted, rfl⟩ := Option.map_eq_some_iff.mp stepped
        exact holds.main (Option.not_isSome_iff_eq_none.mp free) rfl acted
  | submit cycle =>
      simp only [Publisher.step] at stepped
      split at stepped
      · cases stepped
      next free =>
        exact holds.submit someFiles someBytes (Option.not_isSome_iff_eq_none.mp free) stepped
  | lock now id =>
      obtain ⟨ledger, locked, rfl⟩ := Option.map_eq_some_iff.mp stepped
      exact holds.advance someFiles someBytes locked (holds.matched.lock locked)
  | operate action =>
      obtain ⟨ledger, operated, rfl⟩ := Option.map_eq_some_iff.mp stepped
      exact holds.advance someFiles someBytes operated (holds.matched.operate holds.sound operated)
  | work action =>
      obtain ⟨ledger, worked, rfl⟩ := Option.map_eq_some_iff.mp stepped
      exact holds.advance someFiles someBytes worked (holds.matched.work worked)
  | settle =>
      obtain ⟨submission, pending, stepped⟩ := Option.bind_eq_some_iff.mp stepped
      obtain ⟨answer, answered, stepped⟩ := Option.bind_eq_some_iff.mp stepped
      obtain ⟨accepted, result, rfl⟩ := Option.map_eq_some_iff.mp stepped
      exact holds.settle coins pending answered result

end Publishes

/-- A new process on a directory has nothing to await. -/
theorem publishes_start {calls : List (LedgerCall LatencyWindowEvent)}
    {listing : List (Name × File)} {removed : Name → Bool} {succeeds : Bool}
    {opened : Ledger LatencyWindowEvent} {p : Process} (someFiles : 0 < outbox.maxFiles)
    (someBytes : 0 < outbox.maxBytes)
    (executed : run (Ledger.step encode outbox) Ledger.new
      (calls ++ [.start listing removed succeeds]) = some opened)
    (running : opened.machine.process = some p) (startedAt startedWallMs : Nat) :
    Publishes encode outbox config opened.machine.accepted
      (start config startedAt startedWallMs opened) := by
  have balanced : Balanced outbox opened :=
    run_preserves (Balanced outbox)
      (fun _ _ _ balanced stepped => balanced.step someFiles someBytes stepped)
      balanced_new executed
  rw [run_concat] at executed
  obtain ⟨before, _, last⟩ := Option.bind_eq_some_iff.mp executed
  obtain ⟨next, acted, same⟩ := Option.map_eq_some_iff.mp last
  have fresh : opened.waiting = [] ∧ opened.machine = next := by
    rw [← same]
    split <;> exact ⟨rfl, rfl⟩
  have free : p.persister.job = none := job_of_start acted (fresh.2 ▸ running)
  refine ⟨balanced.sound, ⟨p, [], [], running, .idle fresh.1 free, ?_, .nil⟩, rfl,
    fun _ => .new config startedAt startedWallMs, fun submission pending => ?_⟩
  · change opened.machine.accepted = opened.machine.accepted ++ [] ++ []
    rw [List.append_nil, List.append_nil]
  · exact absurd pending (Option.some_ne_none submission).symm

/--
In every run of a process on its outbox, whatever the directory went through
before, the batches accepted since the start are the rows of the committed
publications in their order, and at most one more, whose answer is awaited; the
publications continue one another and no cohort is counted twice.
-/
theorem accepted_batches_published (someFiles : 0 < outbox.maxFiles)
    (someBytes : 0 < outbox.maxBytes) (coins : config.coins ≠ [])
    (calls : List (LedgerCall LatencyWindowEvent)) {listing : List (Name × File)}
    {removed : Name → Bool} {succeeds : Bool} {opened : Ledger LatencyWindowEvent} {p : Process}
    (executed : run (Ledger.step encode outbox) Ledger.new
      (calls ++ [.start listing removed succeeds]) = some opened)
    (running : opened.machine.process = some p) {startedAt startedWallMs : Nat}
    {actions : List PublisherAction} {final : Publisher}
    (reached : run (step encode outbox) (start config startedAt startedWallMs opened) actions =
      some final) :
    (∃ serials late,
      final.ledger.machine.accepted = opened.machine.accepted ++ serials ++ late ∧
      late.length ≤ 1 ∧ (final.submission = none → late = []) ∧
      List.Forall₂ (fun serial publication =>
        Stores encode final.ledger.machine.log serial publication.rows) serials final.published) ∧
    final.published.IsChain Benchmark.Publication.Follows ∧
    (∀ publication ∈ final.published, publication.Shown config) ∧
    ∀ coin, (final.published.flatMap fun publication => publication.counted coin).Nodup := by
  have holds : Publishes encode outbox config opened.machine.accepted final :=
    run_preserves (Publishes encode outbox config opened.machine.accepted)
      (fun _ _ _ holds stepped => holds.step someFiles someBytes coins stepped)
      (publishes_start someFiles someBytes executed running startedAt startedWallMs) reached
  have tallied : ∃ benchmark : Benchmark, benchmark.config = config ∧
      Benchmark.Tallied final.published benchmark := by
    cases pending : final.submission with
    | none => exact ⟨final.benchmark, holds.configured, holds.tallied pending⟩
    | some submission =>
        obtain ⟨tallied, configured, _⟩ := holds.prepared submission pending
        exact ⟨submission.before, configured, tallied⟩
  obtain ⟨benchmark, configured, tallied⟩ := tallied
  refine ⟨?_, tallied.tiled, configured ▸ tallied.shown, fun coin => ?_⟩
  · obtain ⟨p, serials, late, _, awaits, accepted, stored⟩ := holds.matched.awaits
    refine ⟨serials, late, accepted, ?_, fun none => ?_, stored⟩
    · exact awaits.length_le
    · exact (none ▸ awaits).nil_of_idle
  · cases compared : benchmark.config.hasProviderComparison with
    | true => exact (tallied.accounted compared coin).once
    | false =>
        have nothing : (final.published.flatMap fun publication => publication.counted coin) =
            [] :=
          List.flatMap_eq_nil_iff.mpr fun publication member =>
            tallied.uncompared compared publication member coin
        rw [nothing]
        exact List.nodup_nil

/-- A new directory. -/
def newOutbox : List (LedgerCall LatencyWindowEvent) :=
  [.start [(lockName, { content := [], synced := false, serial := 0 })] (fun _ => false) true]

def bookCycle (now wallNowMs : Nat) : Cycle where
  order := .stored
  now := now
  wallNowMs := wallNowMs
  signals := Benchmark.liveSignals wallNowMs
  clock := Benchmark.soundClock wallNowMs

/-- A window is accepted and committed; the next one is dropped and rejected. -/
def bookPublisherActions : List PublisherAction :=
  [.record .stored (.market (Benchmark.quote .foundationWs "7" 0)),
    .record .stored (.market (Benchmark.quote .quickNodeGrpc "7" 3)),
    .record .stored (.market (Benchmark.quote .hydromancerWs "7" 5)),
    .submit (bookCycle 20 30000), .lock 1000 "a".toList,
    .operate (.createTemp true), .operate (.writeTemp true []), .operate (.syncTemp true),
    .operate (.rename true), .operate (.syncDirectory true), .operate .push, .settle,
    .submit (bookCycle 40 60000), .lock 2000 "b".toList, .operate (.createTemp false),
    .operate (.removeTemp true), .settle]

theorem accepted_batches_published_books :
    ∃ opened p final, run (Ledger.step (fun _ => some [7]) sampleConfig) Ledger.new newOutbox =
        some opened ∧ opened.machine.process = some p ∧
      run (step (fun _ => some [7]) sampleConfig) (start Benchmark.bookProcess 0 0 opened)
        bookPublisherActions = some final ∧
      final.ledger.machine.accepted = [0] ∧ final.published.length = 1 ∧
      final.published.IsChain Benchmark.Publication.Follows := by
  have outcome : ((run (Ledger.step (fun _ => some [7]) sampleConfig) Ledger.new newOutbox).bind
      fun opened => (run (step (fun _ => some [7]) sampleConfig)
        (start Benchmark.bookProcess 0 0 opened) bookPublisherActions).map fun final =>
          (opened.machine.process.isSome, final.ledger.machine.accepted, final.published.length)) =
      some (true, [0], 1) := by decide +kernel
  obtain ⟨opened, executed, outcome⟩ := Option.bind_eq_some_iff.mp outcome
  obtain ⟨final, reached, same⟩ := Option.map_eq_some_iff.mp outcome
  obtain ⟨alive, same⟩ := Prod.mk.inj same
  obtain ⟨accepted, published⟩ := Prod.mk.inj same
  obtain ⟨p, running⟩ := Option.isSome_iff_exists.mp alive
  have observed := accepted_batches_published (by decide) (by decide) (by decide) [] executed
    running reached
  exact ⟨opened, p, final, executed, running, reached, accepted, published, observed.2.1⟩

end Publisher

end MarketBenchmark
