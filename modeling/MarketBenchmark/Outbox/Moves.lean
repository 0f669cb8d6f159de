import MarketBenchmark.Outbox.Process

/-!
# The moves of the publishing task and of the worker

An operation of the call that holds the lock, and a step of the delivery loop,
lead to one of a few machines.  What they keep is shown outcome by outcome.
-/

namespace MarketBenchmark.Outbox

open Foundation

variable {Event : Type}

/-- What an operation of the call that holds the lock leads to. -/
inductive Operates (m : Machine) (p : Process) : PersistAction Event → Machine → Prop where
  | created {job : Job} (stage : p.persister = .creating job)
      (absent : m.disk.visible.get job.temp = none) :
      Operates m p (.createTemp true)
        { m with
          disk := m.disk.record
            (.write job.temp { content := [], synced := false, serial := job.file.serial })
          process := some { p with persister := .writing job } }
  | uncreated {job : Job} (succeeds : Bool) (stage : p.persister = .creating job) :
      Operates m p (.createTemp succeeds)
        { m with process := some { p with persister := .abandoning job } }
  | written {job : Job} (torn : Bytes) (stage : p.persister = .writing job) :
      Operates m p (.writeTemp true torn)
        { m with
          disk := m.disk.record
            (.write job.temp { content := job.body, synced := false, serial := job.file.serial })
          process := some { p with persister := .syncing job } }
  | torn {job : Job} (torn : Bytes) (stage : p.persister = .writing job) :
      Operates m p (.writeTemp false torn)
        { m with
          disk := m.disk.record
            (.write job.temp { content := torn, synced := false, serial := job.file.serial })
          process := some { p with persister := .abandoning job } }
  | synced {job : Job} {file : File} (stage : p.persister = .syncing job)
      (found : m.disk.visible.get job.temp = some file) :
      Operates m p (.syncTemp true)
        { m with
          disk := m.disk.record (.write job.temp { file with synced := true })
          process := some { p with persister := .renaming job } }
  | unsynced {job : Job} (succeeds : Bool) (stage : p.persister = .syncing job) :
      Operates m p (.syncTemp succeeds)
        { m with process := some { p with persister := .abandoning job } }
  | removed {job : Job} (stage : p.persister = .abandoning job) :
      Operates m p (.removeTemp true)
        { m with
          disk := m.disk.record (.remove job.temp)
          process := some { p with persister := .idle } }
  | unremoved {job : Job} (stage : p.persister = .abandoning job) :
      Operates m p (.removeTemp false) { m with process := some { p with persister := .idle } }
  | renamed {job : Job} {file : File} (stage : p.persister = .renaming job)
      (found : m.disk.visible.get job.temp = some file) :
      Operates m p (.rename true)
        { m with
          disk := m.disk.record (.move job.temp job.file.name file)
          process := some { p with persister := .syncingDirectory job } }
  | unrenamed {job : Job} (succeeds : Bool) (stage : p.persister = .renaming job) :
      Operates m p (.rename succeeds)
        { m with process := some { p with persister := .abandoning job } }
  | settled {job : Job} (stage : p.persister = .syncingDirectory job) :
      Operates m p (.syncDirectory true)
        { m with
          disk := m.disk.sync
          process := some { p with persister := .pushing job } }
  | unsettled {job : Job} (stage : p.persister = .syncingDirectory job) :
      Operates m p (.syncDirectory false)
        { m with process := some { p with persister := .idle, poisoned := true } }
  | pushed {job : Job} (stage : p.persister = .pushing job) :
      Operates m p .push
        { m with
          accepted := m.accepted ++ [job.file.serial]
          process := some
            { p with
              persister := .idle
              state := { files := p.state.files ++ [job.file], bytes := job.nextBytes } } }

/-- Every action of the call but the first is one of the operations. -/
theorem operates_of_persistStep {config : OutboxConfig} {encode : Event → Option Bytes}
    {m next : Machine} {p : Process} {action : PersistAction Event}
    (operation : ∀ events now id, action ≠ .submit events now id)
    (stepped : persistStep encode config m p action = some next) : Operates m p action next := by
  cases action with
  | submit events now id => exact absurd rfl (operation events now id)
  | createTemp succeeds =>
      simp only [persistStep] at stepped
      split at stepped
      next stage =>
        split at stepped
        next fresh =>
          cases stepped
          cases fresh.1
          exact .created stage fresh.2
        · cases stepped
          exact .uncreated succeeds stage
      · cases stepped
  | writeTemp succeeds torn =>
      simp only [persistStep] at stepped
      split at stepped
      next stage =>
        cases stepped
        cases succeeds with
        | true => exact .written torn stage
        | false => exact .torn torn stage
      · cases stepped
  | syncTemp succeeds =>
      simp only [persistStep] at stepped
      split at stepped
      next stage =>
        split at stepped
        next found =>
          cases stepped
          exact .synced stage found
        · cases stepped
          exact .unsynced _ stage
      · cases stepped
  | removeTemp succeeds =>
      simp only [persistStep] at stepped
      split at stepped
      next stage =>
        cases stepped
        cases succeeds with
        | true => exact .removed stage
        | false => exact .unremoved stage
      · cases stepped
  | rename succeeds =>
      simp only [persistStep] at stepped
      split at stepped
      next stage =>
        split at stepped
        next found =>
          cases stepped
          exact .renamed stage found
        · cases stepped
          exact .unrenamed _ stage
      · cases stepped
  | syncDirectory succeeds =>
      simp only [persistStep] at stepped
      split at stepped
      next stage =>
        cases succeeds with
        | true =>
            cases stepped
            exact .settled stage
        | false =>
            cases stepped
            exact .unsettled stage
      · cases stepped
  | push =>
      simp only [persistStep] at stepped
      split at stepped
      next stage =>
        cases stepped
        exact .pushed stage
      · cases stepped

/-- What a step of the delivery loop leads to. -/
inductive Delivers (m : Machine) (p : Process) : WorkAction → Machine → Prop where
  | waits (worker : p.worker = .idle) (idle : p.persister = .idle) :
      Delivers m p .next { m with process := some (p.unlessStopping .idle) }
  | takes {file : OutboxFile} (worker : p.worker = .idle) (idle : p.persister = .idle)
      (head : p.state.files.head? = some file) :
      Delivers m p .next { m with process := some { p with worker := .reading file } }
  | reads {file : OutboxFile} {stored : File} (worker : p.worker = .reading file)
      (found : m.disk.visible.get file.name = some stored) :
      Delivers m p (.read true)
        { m with process := some { p with worker := .posting file stored.content 0 } }
  | unread {file : OutboxFile} (succeeds : Bool) (worker : p.worker = .reading file) :
      Delivers m p (.read succeeds) { m with process := some (p.unlessStopping .idle) }
  | acknowledged {file : OutboxFile} {body : Bytes} {attempt : Nat}
      (response : Option IngestResponse) (worker : p.worker = .posting file body attempt) :
      Delivers m p (.post response)
        { m with
          acked := m.acked ++ [file.serial]
          process := some
            { p with worker := .unlinking file, acked := p.acked ++ [file.serial] } }
  | posted {file : OutboxFile} {body : Bytes} {attempt : Nat} (response : Option IngestResponse)
      (worker : p.worker = .posting file body attempt) :
      Delivers m p (.post response)
        { m with process := some { p with worker := .posting file body (attempt + 1) } }
  | exhausted {file : OutboxFile} {body : Bytes} {attempt : Nat}
      (response : Option IngestResponse) (worker : p.worker = .posting file body attempt) :
      Delivers m p (.post response) { m with process := some (p.unlessStopping .idle) }
  | stopped : Delivers m p .giveUp { m with process := some { p with worker := .stopped } }
  | unlinked {file : OutboxFile} (worker : p.worker = .unlinking file) :
      Delivers m p (.unlink true)
        { m with
          disk := m.disk.record (.remove file.name)
          process := some { p with worker := .committing file } }
  | gone {file : OutboxFile} (worker : p.worker = .unlinking file)
      (absent : m.disk.visible.get file.name = none) :
      Delivers m p (.unlink true) { m with process := some { p with worker := .committing file } }
  | linked {file : OutboxFile} (worker : p.worker = .unlinking file) :
      Delivers m p (.unlink false)
        { m with process := some (p.unlessStopping (.unlinking file)) }
  | committed {file : OutboxFile} (worker : p.worker = .committing file) :
      Delivers m p (.commit true)
        { m with
          disk := m.disk.sync
          process := some { p with worker := .forgetting file } }
  | uncommitted {file : OutboxFile} (worker : p.worker = .committing file) :
      Delivers m p (.commit false)
        { m with process := some (p.unlessStopping (.unlinking file)) }
  | forgets {file removed : OutboxFile} (worker : p.worker = .forgetting file)
      (idle : p.persister = .idle)
      (found : p.state.files.find? (fun pending => pending.name = file.name) = some removed) :
      Delivers m p .forget
        { m with
          process := some
            { p with
              worker := .idle
              state :=
                { files := p.state.files.eraseP fun pending => pending.name = file.name
                  bytes := p.state.bytes - removed.bytes } } }
  | unknown {file : OutboxFile} (worker : p.worker = .forgetting file)
      (absent : p.state.files.find? (fun pending => pending.name = file.name) = none) :
      Delivers m p .forget { m with process := some (p.unlessStopping (.unlinking file)) }

theorem delivers_of_workStep {m next : Machine} {p : Process} {action : WorkAction}
    (stepped : workStep m p action = some next) : Delivers m p action next := by
  cases action with
  | next =>
      simp only [workStep] at stepped
      split at stepped
      next worker idle =>
        split at stepped
        next head =>
          cases stepped
          exact .takes worker idle head
        · cases stepped
          exact .waits worker idle
      · cases stepped
  | read succeeds =>
      simp only [workStep] at stepped
      split at stepped
      next worker =>
        split at stepped
        next found =>
          split at stepped
          · cases stepped
            exact .unread true worker
          · cases stepped
            exact .reads worker found
        · cases stepped
          exact .unread _ worker
      · cases stepped
  | post response =>
      simp only [workStep] at stepped
      split at stepped
      next worker =>
        split at stepped
        · cases stepped
          exact .acknowledged response worker
        · split at stepped
          · cases stepped
            exact .posted response worker
          · cases stepped
            exact .exhausted response worker
      · cases stepped
  | giveUp =>
      simp only [workStep] at stepped
      split at stepped
      · split at stepped
        · cases stepped
          exact .stopped
        · cases stepped
      · cases stepped
  | unlink succeeds =>
      simp only [workStep] at stepped
      split at stepped
      next worker =>
        split at stepped
        · cases stepped
          exact .unlinked worker
        next absent =>
          cases stepped
          exact .gone worker absent
        · cases stepped
          exact .linked worker
      · cases stepped
  | commit succeeds =>
      simp only [workStep] at stepped
      split at stepped
      next worker =>
        cases succeeds with
        | true =>
            cases stepped
            exact .committed worker
        | false =>
            cases stepped
            exact .uncommitted worker
      · cases stepped
  | forget =>
      simp only [workStep] at stepped
      split at stepped
      next worker idle =>
        split at stepped
        next absent =>
          cases stepped
          exact .unknown worker absent
        next found =>
          cases stepped
          exact .forgets worker idle found
      · cases stepped

end MarketBenchmark.Outbox
