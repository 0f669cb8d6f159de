import MarketBenchmark.Outbox.Names
import MarketBenchmark.Foundation.Directories
import MarketBenchmark.Foundation.Runs

/-!
# The persistent outbox as a process on a directory

A publishing task writes batches of events to the outbox directory and a worker
posts them and removes what was acknowledged.  Every input or output operation
is one action of its own, so the two interleave, each operation can fail, and a
crash can come between any two of them.  The encoder of events, the answers of
the ingest service, the wall clock and the identifiers come with the actions.
Every batch that reaches the directory gets a serial number, which only tells
batches apart: no transition reads it.
-/

namespace MarketBenchmark.Outbox

open Foundation

/-! ## Limits and data -/

def axiomMaxBatchBytes : Nat := 4 * 1024 * 1024

/-- The attempts of one delivery cycle, one for each entry of `RETRY_DELAYS`. -/
def deliveryAttempts : Nat := 5

abbrev Bytes : Type := List UInt8

structure OutboxConfig where
  maxFiles : Nat
  maxBytes : Nat

/-- A file of the directory, and whether its content was synchronised. -/
structure File where
  content : Bytes
  synced : Bool
  serial : Nat
  deriving DecidableEq

structure OutboxFile where
  name : Name
  order : Nat
  bytes : Nat
  events : Nat
  serial : Nat
  deriving DecidableEq

structure OutboxState where
  files : List OutboxFile
  bytes : Nat

/-- The body of a batch and the number of its events. -/
structure Batch where
  body : Bytes
  events : Nat
  deriving DecidableEq

/-! ## Opening -/

/-- Why `open` refuses a directory. -/
inductive Refusal where
  | zeroCaps
  | invalidFilename (name : Name)
  | batchByteLimit (name : Name)
  | byteTotalOverflowed
  | configuredCaps (files bytes : Nat)

/-- The batch files of a directory listing. -/
def scan : List (Name × File) → Except Refusal (List OutboxFile)
  | [] => .ok []
  | (name, file) :: rest =>
      if IsTempName name then scan rest
      else if ¬IsBatchName name then scan rest
      else
        match eventCountFromName name, orderFromName name with
        | some events, some order =>
            if axiomMaxBatchBytes < file.content.length then .error (.batchByteLimit name)
            else (scan rest).map fun files =>
              { name := name, order := order, bytes := file.content.length, events := events,
                serial := file.serial } :: files
        | _, _ => .error (.invalidFilename name)

/-- The order in which recovered files are queued. -/
def queuedBefore (left right : OutboxFile) : Bool :=
  left.order < right.order ∨ left.order = right.order ∧ left.name ≤ right.name

def totalBytes (files : List OutboxFile) : Nat := (files.map OutboxFile.bytes).sum

/-- `PersistentOutbox::open` on a listing of its directory. -/
def openFiles (config : OutboxConfig) (listing : List (Name × File)) :
    Except Refusal OutboxState :=
  if config.maxFiles = 0 ∨ config.maxBytes = 0 then .error .zeroCaps
  else
    match scan listing with
    | .error refusal => .error refusal
    | .ok found =>
        let files := found.mergeSort queuedBefore
        let bytes := totalBytes files
        if 2 ^ 64 ≤ bytes then .error .byteTotalOverflowed
        else if config.maxFiles < files.length ∨ config.maxBytes < bytes then
          .error (.configuredCaps files.length bytes)
        else .ok { files := files, bytes := bytes }

/-! ## Admission of a batch -/

variable {Event : Type} (encode : Event → Option Bytes)

/-- The lines of the events, unless one has no encoding or the body grows too large. -/
def encodeEvents : Bytes → List Event → Option Bytes
  | body, [] => some body
  | body, event :: rest =>
      match encode event with
      | none => none
      | some encoded =>
          if axiomMaxBatchBytes < body.length + encoded.length + 1 then none
          else encodeEvents (body ++ encoded ++ [10]) rest

/-- What `persist_events` hands to `persist_body`. -/
def batchOf (events : List Event) : Option Batch :=
  if axiomMaxEventsPerBatch < events.length then none
  else (encodeEvents encode [] events).map fun body =>
    { body := body, events := events.length }

/-- What `persist_body` has decided once it holds the lock. -/
structure Job where
  file : OutboxFile
  temp : Name
  body : Bytes
  nextBytes : Nat

/-- The ordering key of the next batch. -/
def nextOrder (state : OutboxState) (now : Nat) : Option Nat :=
  match state.files.getLast? with
  | some last => if last.order + 1 < 2 ^ 64 then some (max (now % 2 ^ 64) (last.order + 1)) else none
  | none => some (now % 2 ^ 64)

/-- `persist_body` up to its first input or output. -/
def admitBatch (config : OutboxConfig) (state : OutboxState) (batch : Batch) (now : Nat)
    (id : List Char) (serial : Nat) : Option Job :=
  let bytes := batch.body.length
  let nextBytes := state.bytes + bytes
  if config.maxFiles ≤ state.files.length ∨ 2 ^ 64 ≤ nextBytes ∨ config.maxBytes < nextBytes then
    none
  else
    (nextOrder state now).map fun order =>
      { file :=
          { name := batchName order id batch.events, order := order, bytes := bytes,
            events := batch.events, serial := serial }
        temp := tempName id
        body := batch.body
        nextBytes := nextBytes }

/-! ## Processes -/

/-- Where `persist_body` is; it holds the lock unless it is idle. -/
inductive Persister where
  | idle
  | creating (job : Job)
  | writing (job : Job)
  | syncing (job : Job)
  | abandoning (job : Job)
  | renaming (job : Job)
  | syncingDirectory (job : Job)
  | pushing (job : Job)

/-- Where the delivery loop is. -/
inductive Worker where
  | idle
  | reading (file : OutboxFile)
  | posting (file : OutboxFile) (body : Bytes) (attempt : Nat)
  | unlinking (file : OutboxFile)
  | committing (file : OutboxFile)
  | forgetting (file : OutboxFile)
  | stopped

/-- A running process; `acked` lists the batches with an acknowledged post. -/
structure Process where
  state : OutboxState
  persister : Persister
  worker : Worker
  poisoned : Bool
  stopping : Bool
  acked : List Nat

/-- `AxiomClient`'s view of an answer. -/
structure IngestResponse where
  ingested : Nat
  failed : Nat

/--
The directory and the process on it.  `log` has the batches that were admitted,
`accepted` those whose persisting returned true and `acked` those with an
acknowledged post; they are auxiliary.
-/
structure Machine where
  disk : Disk Name File
  process : Option Process
  log : List Batch
  accepted : List Nat
  acked : List Nat

namespace Machine

def new : Machine where
  disk := Disk.empty
  process := none
  log := []
  accepted := []
  acked := []

end Machine

/-! ## Actions -/

inductive PersistAction (Event : Type) where
  | submit (events : List Event) (now : Nat) (id : List Char)
  | createTemp (succeeds : Bool)
  | writeTemp (succeeds : Bool) (written : Bytes)
  | syncTemp (succeeds : Bool)
  | removeTemp (succeeds : Bool)
  | rename (succeeds : Bool)
  | syncDirectory (succeeds : Bool)
  | push

inductive WorkAction where
  | next
  | read (succeeds : Bool)
  | post (response : Option IngestResponse)
  | giveUp
  | unlink (succeeds : Bool)
  | commit (succeeds : Bool)
  | forget

inductive Action (Event : Type) where
  | persist (action : PersistAction Event)
  | work (action : WorkAction)
  | close
  | exit
  | crash (survived : List (Change Name File)) (torn : Name → Bytes)
  | start (listing : List (Name × File)) (removed : Name → Bool) (succeeds : Bool)

section Steps

variable (config : OutboxConfig)

/-- `persist_events`, up to its first input or output. -/
def submit (m : Machine) (p : Process) (events : List Event) (now : Nat) (id : List Char) :
    Machine :=
  if p.poisoned ∨ events = [] then m
  else
    match batchOf encode events with
    | none => m
    | some batch =>
        match admitBatch config p.state batch now id m.log.length with
        | none => m
        | some job =>
            { m with
              log := m.log ++ [batch]
              process := some { p with persister := .creating job } }

/-- One step of `persist_body`. -/
def persistStep (m : Machine) (p : Process) : PersistAction Event → Option Machine
  | .submit events now id =>
      match p.persister with
      | .idle => some (submit encode config m p events now id)
      | _ => none
  | .createTemp succeeds =>
      match p.persister with
      | .creating job =>
          if succeeds ∧ m.disk.visible.get job.temp = none then
            some { m with
              disk := m.disk.record
                (.write job.temp { content := [], synced := false, serial := job.file.serial })
              process := some { p with persister := .writing job } }
          else some { m with process := some { p with persister := .abandoning job } }
      | _ => none
  | .writeTemp succeeds written =>
      match p.persister with
      | .writing job =>
          some { m with
            disk := m.disk.record (.write job.temp
              { content := if succeeds then job.body else written
                synced := false
                serial := job.file.serial })
            process := some { p with
              persister := if succeeds then .syncing job else .abandoning job } }
      | _ => none
  | .syncTemp succeeds =>
      match p.persister with
      | .syncing job =>
          match succeeds, m.disk.visible.get job.temp with
          | true, some file =>
              some { m with
                disk := m.disk.record (.write job.temp { file with synced := true })
                process := some { p with persister := .renaming job } }
          | _, _ => some { m with process := some { p with persister := .abandoning job } }
      | _ => none
  | .removeTemp succeeds =>
      match p.persister with
      | .abandoning job =>
          some { m with
            disk := if succeeds then m.disk.record (.remove job.temp) else m.disk
            process := some { p with persister := .idle } }
      | _ => none
  | .rename succeeds =>
      match p.persister with
      | .renaming job =>
          match succeeds, m.disk.visible.get job.temp with
          | true, some file =>
              some { m with
                disk := m.disk.record (.move job.temp job.file.name file)
                process := some { p with persister := .syncingDirectory job } }
          | _, _ => some { m with process := some { p with persister := .abandoning job } }
      | _ => none
  | .syncDirectory succeeds =>
      match p.persister with
      | .syncingDirectory job =>
          if succeeds then
            some { m with
              disk := m.disk.sync
              process := some { p with persister := .pushing job } }
          else some { m with process := some { p with persister := .idle, poisoned := true } }
      | _ => none
  | .push =>
      match p.persister with
      | .pushing job =>
          -- `persist_events` returns true
          some { m with
            accepted := m.accepted ++ [job.file.serial]
            process := some { p with
              persister := .idle
              state := { files := p.state.files ++ [job.file], bytes := job.nextBytes } } }
      | _ => none

/-- The worker goes on as said, or returns when the submitter was closed. -/
def Process.unlessStopping (p : Process) (worker : Worker) : Process :=
  { p with worker := if p.stopping then .stopped else worker }

/-- `post_ndjson` returns `Ok`. -/
def FullyAcknowledged (file : OutboxFile) (response : Option IngestResponse) : Prop :=
  ∃ answer ∈ response, answer.failed = 0 ∧ answer.ingested = file.events

instance (file : OutboxFile) (response : Option IngestResponse) :
    Decidable (FullyAcknowledged file response) :=
  match response with
  | none => .isFalse fun ⟨_, member, _⟩ => nomatch member
  | some answer => decidable_of_iff (answer.failed = 0 ∧ answer.ingested = file.events)
      ⟨fun full => ⟨answer, rfl, full⟩, fun ⟨_, member, full⟩ => Option.some.inj member ▸ full⟩

/-- One step of the delivery loop. -/
def workStep (m : Machine) (p : Process) : WorkAction → Option Machine
  | .next =>
      match p.worker, p.persister with
      | .idle, .idle =>
          match p.state.files.head? with
          | some file => some { m with process := some { p with worker := .reading file } }
          | none => some { m with process := some (p.unlessStopping .idle) }
      | _, _ => none
  | .read succeeds =>
      match p.worker with
      | .reading file =>
          match succeeds, m.disk.visible.get file.name with
          | true, some stored =>
              if axiomMaxBatchBytes < file.bytes ∨ axiomMaxBatchBytes < stored.content.length then
                some { m with process := some (p.unlessStopping .idle) }
              else
                some { m with
                  process := some { p with worker := .posting file stored.content 0 } }
          | _, _ => some { m with process := some (p.unlessStopping .idle) }
      | _ => none
  | .post response =>
      match p.worker with
      | .posting file body attempt =>
          if FullyAcknowledged file response then
            some { m with
              acked := m.acked ++ [file.serial]
              process := some { p with
                worker := .unlinking file
                acked := p.acked ++ [file.serial] } }
          else if attempt + 1 < deliveryAttempts then
            some { m with process := some { p with worker := .posting file body (attempt + 1) } }
          else some { m with process := some (p.unlessStopping .idle) }
      | _ => none
  | .giveUp =>
      match p.worker with
      | .posting _ _ attempt =>
          if p.stopping ∧ 0 < attempt then
            some { m with process := some { p with worker := .stopped } }
          else none
      | _ => none
  | .unlink succeeds =>
      match p.worker with
      | .unlinking file =>
          match succeeds, m.disk.visible.get file.name with
          | true, some _ =>
              some { m with
                disk := m.disk.record (.remove file.name)
                process := some { p with worker := .committing file } }
          -- an earlier attempt unlinked the file
          | true, none => some { m with process := some { p with worker := .committing file } }
          | false, _ => some { m with process := some (p.unlessStopping (.unlinking file)) }
      | _ => none
  | .commit succeeds =>
      match p.worker with
      | .committing file =>
          if succeeds then
            some { m with
              disk := m.disk.sync
              process := some { p with worker := .forgetting file } }
          else some { m with process := some (p.unlessStopping (.unlinking file)) }
      | _ => none
  | .forget =>
      match p.worker, p.persister with
      | .forgetting file, .idle =>
          match p.state.files.find? fun pending => pending.name = file.name with
          | none => some { m with process := some (p.unlessStopping (.unlinking file)) }
          | some removed =>
              some { m with
                process := some { p with
                  worker := .idle
                  state :=
                    { files := p.state.files.eraseP fun pending => pending.name = file.name
                      bytes := p.state.bytes - removed.bytes } } }
      | _, _ => none

/-- The lock file exists once `acquire_process_lock` succeeded. -/
def withLock (disk : Disk Name File) : Disk Name File :=
  if disk.visible.get lockName = none then
    disk.record (.write lockName { content := [], synced := false, serial := 0 })
  else disk

/-- `open` removes the temporary files that it can remove. -/
def removeTemps (removed : Name → Bool) (disk : Disk Name File) :
    List (Name × File) → Disk Name File
  | [] => disk
  | (name, _) :: rest =>
      removeTemps removed (if IsTempName name ∧ removed name then disk.record (.remove name) else disk)
        rest

/-- What a crash does to the content of a file. -/
def tear (torn : Name → Bytes) (name : Name) (file : File) : File :=
  if file.synced then file else { file with content := torn name }

/-- A new process opens the directory. -/
def start (m : Machine) (listing : List (Name × File)) (removed : Name → Bool) (succeeds : Bool) :
    Machine :=
  let disk := removeTemps removed (withLock m.disk) listing
  match succeeds, openFiles config listing with
  | true, .ok state =>
      { m with
        disk := disk.sync
        process := some
          { state := state, persister := .idle, worker := .idle, poisoned := false,
            stopping := false, acked := [] } }
  | _, _ => { m with disk := disk }

/-- One action of the processes, of their owner or of the environment. -/
def step (m : Machine) : Action Event → Option Machine
  | .persist action => m.process.bind fun p => persistStep encode config m p action
  | .work action => m.process.bind fun p => workStep m p action
  | .close => m.process.map fun p => { m with process := some { p with stopping := true } }
  | .exit => some { m with process := none }
  | .crash survived torn =>
      if survived.Sublist m.disk.pending then
        some { m with disk := m.disk.crash survived (tear torn), process := none }
      else none
  | .start listing removed succeeds =>
      if m.process.isNone ∧ listing.Perm (withLock m.disk).visible.entries then
        some (start config m listing removed succeeds)
      else none

end Steps

end MarketBenchmark.Outbox
