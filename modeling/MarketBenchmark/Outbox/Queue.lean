import MarketBenchmark.Outbox.Process

/-!
# Queues that a new process recovers

A queue of batch files is sound when its ordering keys and serial numbers
increase, its names and sizes are those of admitted batches, and the caps admit
it.  Opening a directory whose batch files belong to a sound queue succeeds,
whatever the order of the listing, and yields the part of the queue that is
there, in the order of the queue.
-/

namespace MarketBenchmark.Outbox

open Foundation

variable {config : OutboxConfig} {log : List Batch}

/-- What the directory holds under the name of a queued file. -/
def contents (log : List Batch) (file : OutboxFile) : File where
  content := (log[file.serial]?.map Batch.body).getD []
  synced := true
  serial := file.serial

/-- The file describes a batch of the log, under a name that can be read back. -/
structure OutboxFile.WellFormed (log : List Batch) (file : OutboxFile) : Prop where
  named : ∃ id, file.name = batchName file.order id file.events
  order_lt : file.order < 2 ^ 64
  events_pos : 0 < file.events
  events_le : file.events ≤ axiomMaxEventsPerBatch
  bytes_le : file.bytes ≤ axiomMaxBatchBytes
  batch : ∃ batch, log[file.serial]? = some batch ∧ batch.body.length = file.bytes ∧
    batch.events = file.events

namespace OutboxFile

variable {file : OutboxFile}

theorem WellFormed.content_length (wellFormed : file.WellFormed log) :
    (contents log file).content.length = file.bytes := by
  obtain ⟨batch, found, length, _⟩ := wellFormed.batch
  unfold contents
  rw [found]
  exact length

theorem WellFormed.isBatchName (wellFormed : file.WellFormed log) : IsBatchName file.name := by
  obtain ⟨id, named⟩ := wellFormed.named
  rw [named]
  exact isBatchName_batchName _ _ _

theorem WellFormed.orderFromName (wellFormed : file.WellFormed log) :
    orderFromName file.name = some file.order := by
  obtain ⟨id, named⟩ := wellFormed.named
  rw [named]
  exact orderFromName_batchName _ _ wellFormed.order_lt

theorem WellFormed.eventCountFromName (wellFormed : file.WellFormed log) :
    eventCountFromName file.name = some file.events := by
  obtain ⟨id, named⟩ := wellFormed.named
  rw [named]
  exact eventCountFromName_batchName _ _ wellFormed.events_pos wellFormed.events_le

theorem WellFormed.serial_lt (wellFormed : file.WellFormed log) : file.serial < log.length := by
  obtain ⟨batch, found, _⟩ := wellFormed.batch
  exact (List.getElem?_eq_some_iff.mp found).1

theorem WellFormed.log_append (wellFormed : file.WellFormed log) (batch : Batch) :
    file.WellFormed (log ++ [batch]) := by
  refine { wellFormed with batch := ?_ }
  rw [List.getElem?_append_left wellFormed.serial_lt]
  exact wellFormed.batch

theorem WellFormed.contents_append (wellFormed : file.WellFormed log) (batch : Batch) :
    contents (log ++ [batch]) file = contents log file := by
  unfold contents
  rw [List.getElem?_append_left wellFormed.serial_lt]

end OutboxFile

theorem totalBytes_append (first second : List OutboxFile) :
    totalBytes (first ++ second) = totalBytes first + totalBytes second := by
  unfold totalBytes
  rw [List.map_append, List.sum_append]

theorem totalBytes_sublist {part files : List OutboxFile} (sublist : part.Sublist files) :
    totalBytes part ≤ totalBytes files :=
  (sublist.map OutboxFile.bytes).sum_le_sum fun _ _ => Nat.zero_le _

/-- A sound queue within the caps. -/
structure Queue (config : OutboxConfig) (log : List Batch) (files : List OutboxFile) : Prop where
  ordered : files.Pairwise fun earlier later =>
    earlier.order < later.order ∧ earlier.serial < later.serial
  wellFormed : ∀ file ∈ files, file.WellFormed log
  count : files.length ≤ config.maxFiles
  total : totalBytes files ≤ config.maxBytes
  total_lt : totalBytes files < 2 ^ 64

namespace Queue

variable {files : List OutboxFile}

theorem nil : Queue config log [] :=
  ⟨List.Pairwise.nil, nofun, Nat.zero_le _, Nat.zero_le _, by decide⟩

theorem sublist (queue : Queue config log files) {part : List OutboxFile}
    (sublist : part.Sublist files) : Queue config log part where
  ordered := queue.ordered.sublist sublist
  wellFormed := fun file member => queue.wellFormed file (sublist.subset member)
  count := Nat.le_trans sublist.length_le queue.count
  total := Nat.le_trans (totalBytes_sublist sublist) queue.total
  total_lt := Nat.lt_of_le_of_lt (totalBytes_sublist sublist) queue.total_lt

theorem log_append (queue : Queue config log files) (batch : Batch) :
    Queue config (log ++ [batch]) files :=
  { queue with wellFormed := fun file member => (queue.wellFormed file member).log_append batch }

theorem nodup (queue : Queue config log files) : files.Nodup := by
  refine queue.ordered.imp fun {earlier later} apart => ?_
  rintro rfl
  exact Nat.lt_irrefl _ apart.1

theorem eq_of_order (queue : Queue config log files) {first second : OutboxFile}
    (firstMember : first ∈ files) (secondMember : second ∈ files)
    (same : first.order = second.order) : first = second := by
  have orders : (files.map OutboxFile.order).Nodup :=
    List.pairwise_map.mpr (queue.ordered.imp fun apart => apart.1.ne)
  exact List.inj_on_of_nodup_map orders firstMember secondMember same

theorem eq_of_serial (queue : Queue config log files) {first second : OutboxFile}
    (firstMember : first ∈ files) (secondMember : second ∈ files)
    (same : first.serial = second.serial) : first = second := by
  have serials : (files.map OutboxFile.serial).Nodup :=
    List.pairwise_map.mpr (queue.ordered.imp fun apart => apart.2.ne)
  exact List.inj_on_of_nodup_map serials firstMember secondMember same

/-- Different files of a queue have different names. -/
theorem eq_of_name (queue : Queue config log files) {first second : OutboxFile}
    (firstMember : first ∈ files) (secondMember : second ∈ files)
    (same : first.name = second.name) : first = second := by
  have read := (queue.wellFormed first firstMember).orderFromName
  rw [same, (queue.wellFormed second secondMember).orderFromName] at read
  exact queue.eq_of_order firstMember secondMember (Option.some.inj read).symm

/-! ## Opening -/

/-- The batch files of a listing belong to the queue. -/
def Covers (log : List Batch) (files : List OutboxFile) (entry : Name × File) : Prop :=
  IsBatchName entry.1 → ∃ file ∈ files, file.name = entry.1 ∧ contents log file = entry.2

theorem scan_ok (queue : Queue config log files) {listing : List (Name × File)}
    (names : (listing.map Prod.fst).Nodup) (covers : ∀ entry ∈ listing, Covers log files entry) :
    ∃ found, scan listing = .ok found ∧ found.Nodup ∧
      ∀ file, file ∈ found ↔ file ∈ files ∧ (file.name, contents log file) ∈ listing := by
  induction listing with
  | nil =>
      exact ⟨[], rfl, List.nodup_nil,
        fun file => iff_of_false List.not_mem_nil fun both => absurd both.2 List.not_mem_nil⟩
  | cons entry rest ih =>
      obtain ⟨name, stored⟩ := entry
      obtain ⟨fresh, restNames⟩ := List.nodup_cons.mp names
      obtain ⟨found, scanned, nodup, members⟩ :=
        ih restNames fun other member => covers other (List.mem_cons_of_mem _ member)
      have skipped : ¬IsBatchName name → ∃ found, Except.ok (ε := Refusal) found = scan rest ∧
          found.Nodup ∧ ∀ file, file ∈ found ↔
            file ∈ files ∧ (file.name, contents log file) ∈ (name, stored) :: rest := by
        intro noBatch
        refine ⟨found, scanned.symm, nodup, fun file => ?_⟩
        rw [members]
        refine and_congr_right fun member => ?_
        rw [List.mem_cons]
        refine (or_iff_right ?_).symm
        intro same
        have names := (Prod.mk.inj same).1
        exact noBatch (names ▸ (queue.wellFormed file member).isBatchName)
      unfold scan
      by_cases temp : IsTempName name
      · rw [if_pos temp]
        obtain ⟨found, same, result⟩ := skipped (not_isBatchName_of_isTempName temp)
        exact ⟨found, same.symm, result⟩
      rw [if_neg temp]
      by_cases batch : IsBatchName name
      · rw [if_neg (not_not.mpr batch)]
        obtain ⟨file, member, sameName, sameStored⟩ := covers _ List.mem_cons_self batch
        dsimp only at sameName sameStored
        subst sameName sameStored
        have wellFormed := queue.wellFormed file member
        rw [wellFormed.eventCountFromName, wellFormed.orderFromName]
        dsimp only
        rw [wellFormed.content_length, if_neg (Nat.not_lt.mpr wellFormed.bytes_le), scanned]
        refine ⟨file :: found, rfl, List.nodup_cons.mpr ⟨fun again => ?_, nodup⟩, fun other => ?_⟩
        · exact fresh (List.mem_map.mpr ⟨_, ((members file).mp again).2, rfl⟩)
        · rw [List.mem_cons, List.mem_cons, members]
          constructor
          · rintro (rfl | ⟨otherMember, listed⟩)
            · exact ⟨member, Or.inl rfl⟩
            · exact ⟨otherMember, Or.inr listed⟩
          · rintro ⟨otherMember, same | listed⟩
            · exact Or.inl (queue.eq_of_name otherMember member (Prod.mk.inj same).1)
            · exact Or.inr ⟨otherMember, listed⟩
      · rw [if_pos batch]
        obtain ⟨found, same, result⟩ := skipped batch
        exact ⟨found, same.symm, result⟩

theorem queuedBefore_iff {left right : OutboxFile} :
    queuedBefore left right = true ↔
      left.order < right.order ∨ left.order = right.order ∧ left.name ≤ right.name := by
  unfold queuedBefore
  rw [decide_eq_true_iff]

theorem pairwise_mergeSort_queuedBefore (found : List OutboxFile) :
    (found.mergeSort queuedBefore).Pairwise fun left right => queuedBefore left right = true := by
  refine List.pairwise_mergeSort (fun first second third before after => ?_)
    (fun first second => ?_) found
  · rw [queuedBefore_iff] at before after ⊢
    rcases before with less | ⟨same, name⟩
    · rcases after with further | ⟨equal, _⟩
      · exact Or.inl (Nat.lt_trans less further)
      · exact Or.inl (equal ▸ less)
    · rcases after with further | ⟨equal, later⟩
      · exact Or.inl (same ▸ further)
      · exact Or.inr ⟨same.trans equal, name.trans later⟩
  · rw [Bool.or_eq_true, queuedBefore_iff, queuedBefore_iff]
    rcases Nat.lt_trichotomy first.order second.order with less | same | more
    · exact Or.inl (Or.inl less)
    · rcases le_total first.name second.name with name | name
      · exact Or.inl (Or.inr ⟨same, name⟩)
      · exact Or.inr (Or.inr ⟨same.symm, name⟩)
    · exact Or.inr (Or.inl more)

/-- Sorting what was scanned restores the order of the queue. -/
theorem scan_sorted (queue : Queue config log files) {listing : List (Name × File)}
    (names : (listing.map Prod.fst).Nodup) (covers : ∀ entry ∈ listing, Covers log files entry) :
    ∃ found, scan listing = .ok found ∧ (found.mergeSort queuedBefore).Sublist files ∧
      ∀ file, file ∈ found ↔ file ∈ files ∧ (file.name, contents log file) ∈ listing := by
  obtain ⟨found, scanned, nodup, members⟩ := queue.scan_ok names covers
  have present : ∀ file, file ∈ found ↔
      file ∈ files.filter fun file => (file.name, contents log file) ∈ listing := by
    intro file
    rw [members, List.mem_filter, decide_eq_true_iff]
  have sorted : found.mergeSort queuedBefore =
      files.filter fun file => (file.name, contents log file) ∈ listing := by
    refine List.Perm.eq_of_pairwise (fun first second _ _ before after => ?_)
      (pairwise_mergeSort_queuedBefore found)
      ((queue.ordered.imp fun apart => ?_).filter _)
      ((List.mergeSort_perm found queuedBefore).trans
        ((List.perm_ext_iff_of_nodup nodup (queue.nodup.filter _)).mpr present))
    · rename_i firstMember secondMember
      have firstFound := (List.mergeSort_perm found queuedBefore).subset firstMember
      refine queue.eq_of_order ((members first).mp firstFound).1
        (List.mem_filter.mp secondMember).1 ?_
      rw [queuedBefore_iff] at before after
      omega
    · exact queuedBefore_iff.mpr (Or.inl apart.1)
  refine ⟨found, scanned, ?_, members⟩
  rw [sorted]
  exact List.filter_sublist

/-- Opening recovers the part of the queue that the directory has. -/
theorem openFiles_ok (queue : Queue config log files) (someFiles : 0 < config.maxFiles)
    (someBytes : 0 < config.maxBytes) {listing : List (Name × File)}
    (names : (listing.map Prod.fst).Nodup) (covers : ∀ entry ∈ listing, Covers log files entry) :
    ∃ state, openFiles config listing = .ok state ∧ state.files.Sublist files ∧
      state.bytes = totalBytes state.files ∧
      ∀ file, file ∈ state.files ↔ file ∈ files ∧ (file.name, contents log file) ∈ listing := by
  obtain ⟨found, scanned, sublist, members⟩ := queue.scan_sorted names covers
  have sound := queue.sublist sublist
  unfold openFiles
  rw [if_neg (by omega), scanned]
  dsimp only
  have capped : ¬(config.maxFiles < (found.mergeSort queuedBefore).length ∨
      config.maxBytes < totalBytes (found.mergeSort queuedBefore)) := by
    rintro (many | large)
    · exact absurd sound.count (Nat.not_le.mpr many)
    · exact absurd sound.total (Nat.not_le.mpr large)
  rw [if_neg (Nat.not_le.mpr sound.total_lt), if_neg capped]
  refine ⟨_, rfl, sublist, rfl, fun file => ?_⟩
  rw [(List.mergeSort_perm found queuedBefore).mem_iff, members]

end Queue

end MarketBenchmark.Outbox
