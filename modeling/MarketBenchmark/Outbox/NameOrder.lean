import MarketBenchmark.Foundation.Utf8
import MarketBenchmark.Outbox.Recovery

/-!
# The order of the names of outbox files

The ordering key stands first in the name of a batch file and always has twenty
digits, so the byte-wise order of names is the order of the keys.  Sorting what
a new process finds in the directory puts the batches in the order in which they
were admitted.
-/

namespace MarketBenchmark.Outbox

open Foundation Foundation.Labels

/-- The key by which `open` sorts, with the names compared byte by byte. -/
theorem queuedBefore_iff_bytes {left right : OutboxFile} :
    queuedBefore left right = true ↔ left.order < right.order ∨
      left.order = right.order ∧ Utf8.encode left.name ≤ Utf8.encode right.name := by
  rw [Queue.queuedBefore_iff, Utf8.encode_le_iff]

theorem batchName_lt {first second : Nat} (firstId secondId : List Char)
    (firstEvents secondEvents : Nat) (fits : second < 2 ^ 64) (less : first < second) :
    batchName first firstId firstEvents < batchName second secondId secondEvents := by
  have secondFits : second < 10 ^ 20 := Nat.lt_trans fits (by decide)
  have firstFits : first < 10 ^ 20 := Nat.lt_trans less secondFits
  have sameLength : (padded 20 first).length = (padded 20 second).length := by
    rw [length_padded (by decide) firstFits, length_padded (by decide) secondFits]
  unfold batchName
  rw [List.append_assoc, List.append_assoc]
  exact append_lt_append sameLength
    ((padded_lt_iff (by decide) firstFits secondFits).mpr less) _ _

/-- Names of batches with different ordering keys are ordered byte by byte as the keys are. -/
theorem encode_batchName_lt_iff {first second : Nat} (firstFits : first < 2 ^ 64)
    (secondFits : second < 2 ^ 64) (different : first ≠ second) (firstId secondId : List Char)
    (firstEvents secondEvents : Nat) :
    Utf8.encode (batchName first firstId firstEvents) <
        Utf8.encode (batchName second secondId secondEvents) ↔ first < second := by
  rw [Utf8.encode_lt_iff]
  constructor
  · intro less
    by_contra notLess
    have larger : second < first := Nat.lt_of_le_of_ne (Nat.not_lt.mp notLess) different.symm
    exact absurd less
      (lt_asymm (batchName_lt secondId firstId secondEvents firstEvents firstFits larger))
  · exact batchName_lt firstId secondId firstEvents secondEvents secondFits

/-- Sorting what was scanned after any run of the outbox. -/
theorem Stored.scans {config : OutboxConfig} {disk : Disk Name File} {log : List Batch}
    {accepted acked : List Nat} {files : List OutboxFile}
    (stored : Stored config disk log accepted acked files) {listing : List (Name × File)}
    (listed : listing.Perm disk.visible.entries) :
    ∃ recovered, scan listing = .ok recovered ∧ (∀ file ∈ recovered, file.WellFormed log) ∧
      (recovered.mergeSort queuedBefore).Pairwise fun earlier later =>
        earlier.serial < later.serial := by
  have names : (listing.map Prod.fst).Nodup :=
    (listed.map Prod.fst).nodup_iff.mpr disk.visible.nodup_keys
  obtain ⟨recovered, scanned, sublist, members⟩ := stored.queue.scan_sorted names
    fun entry member => stored.only.visible entry (listed.subset member)
  refine ⟨recovered, scanned, fun file member => ?_, ?_⟩
  · exact stored.queue.wellFormed file ((members file).mp member).1
  · exact (stored.queue.sublist sublist).ordered.imp fun apart => apart.2

/--
Whatever the identifier is, a name gives back its ordering key and its number of
events, and names with different keys compare byte by byte as the keys do.  In
every reachable state of the outbox, sorting what a listing of the directory
yields restores the order of admission.
-/
theorem batch_names_restore_admissions :
    (∀ (order : Nat) (id : List Char) (events : Nat), order < 2 ^ 64 → 1 ≤ events →
      events ≤ axiomMaxEventsPerBatch →
      orderFromName (batchName order id events) = some order ∧
        eventCountFromName (batchName order id events) = some events) ∧
    (∀ (first second : Nat) (firstId secondId : List Char) (firstEvents secondEvents : Nat),
      first < 2 ^ 64 → second < 2 ^ 64 → first ≠ second →
      (Utf8.encode (batchName first firstId firstEvents) <
        Utf8.encode (batchName second secondId secondEvents) ↔ first < second)) ∧
    ∀ {Event : Type} (encode : Event → Option Bytes) (config : OutboxConfig),
      0 < config.maxFiles → 0 < config.maxBytes →
      ∀ (actions : List (Action Event)) (m : Machine),
        Runs.run (step encode config) Machine.new actions = some m →
        ∀ listing, listing.Perm (withLock m.disk).visible.entries →
          ∃ recovered, scan listing = .ok recovered ∧
            (∀ file ∈ recovered, file.WellFormed m.log) ∧
            (recovered.mergeSort queuedBefore).Pairwise fun earlier later =>
              earlier.serial < later.serial := by
  refine ⟨fun order id events fits positive few => ?_, ?_, ?_⟩
  · exact ⟨orderFromName_batchName id events fits,
      eventCountFromName_batchName order id positive few⟩
  · intro first second firstId secondId firstEvents secondEvents firstFits secondFits different
    exact encode_batchName_lt_iff firstFits secondFits different firstId secondId _ _
  · intro Event encode config someFiles someBytes actions m reached listing listed
    have sound : Sound config m :=
      Runs.run_preserves (Sound config)
        (fun _ _ _ sound stepped => sound.step someFiles someBytes stepped) sound_new reached
    obtain ⟨files, stored⟩ := sound.stored
    exact stored.withLock.scans listed

/-- The identifier is the text of a UUID, with the separator in it. -/
theorem batch_names_restore_admissions_sample :
    orderFromName (batchName 1755000000000 "9b2f6c1e-0d4a-4c7b-8f3e-5a6d7c8b9e0f".toList 10000) =
        some 1755000000000 ∧
    eventCountFromName (batchName 1755000000000 "9b2f6c1e-0d4a-4c7b-8f3e-5a6d7c8b9e0f".toList
      10000) = some 10000 ∧
    Utf8.encode (batchName 999 "9b2f6c1e-0d4a-4c7b-8f3e-5a6d7c8b9e0f".toList 7) <
      Utf8.encode (batchName 1000 "0c2f6c1e-0d4a-4c7b-8f3e-5a6d7c8b9e0f".toList 7) ∧
    ∃ m, Runs.run (step (fun byte => some [byte]) sampleConfig) Machine.new sampleActions =
        some m ∧ m.accepted = [0, 1] ∧
      ∀ listing, listing.Perm (withLock m.disk).visible.entries →
        ∃ recovered, scan listing = .ok recovered ∧
          (∀ file ∈ recovered, file.WellFormed m.log) ∧
          (recovered.mergeSort queuedBefore).Pairwise fun earlier later =>
            earlier.serial < later.serial := by
  obtain ⟨decoded, ordered, recovers⟩ := batch_names_restore_admissions
  obtain ⟨order, events⟩ := decoded 1755000000000 "9b2f6c1e-0d4a-4c7b-8f3e-5a6d7c8b9e0f".toList
    10000 (by decide) (by decide) (by decide)
  have outcome : (Runs.run (step (fun byte => some [byte]) sampleConfig) Machine.new
      sampleActions).map Machine.accepted = some [0, 1] := by decide +kernel
  obtain ⟨m, reached, accepted⟩ := Option.map_eq_some_iff.mp outcome
  refine ⟨order, events, ?_, m, reached, accepted, fun listing listed => ?_⟩
  · exact (ordered 999 1000 _ _ 7 7 (by decide) (by decide) (by decide)).mpr (by decide)
  · exact recovers _ sampleConfig (by decide) (by decide) sampleActions m reached listing listed

end MarketBenchmark.Outbox
