import MarketBenchmark.Collector.Guards

/-!
# A complete row rests on what happened

A row that calls its cohort complete was not written on faith: every active
stream of its coin holds a connection at that moment, was last heard of on this
very connection and not long ago, and its last drop is stamped longer ago than
the rolling window; and the clock was checked, synchronised and within its bounds.
-/

namespace MarketBenchmark

open Foundation.Channels
open Foundation.HashMaps
open Foundation.Journals
open Foundation.Runs

/-! ## The clock -/

/-- What a healthy clock was found to be. -/
structure ClockHealthSnapshot.Sound (clock : ClockHealthSnapshot) (wallNowMs : Nat) : Prop where
  checked : 0 < clock.checkedAtWallMs ∧ clock.checkedAtWallMs ≤ wallNowMs ∧
    wallNowMs - clock.checkedAtWallMs ≤ clockSampleMaxAgeMs
  verified : clock.verified = true
  synchronized : clock.synchronized = true
  offset : ∃ offset ∈ clock.offsetMs, |offset| ≤ clock.maxOffsetMs
  errorBound : ∃ bound ∈ clock.errorBoundMs, bound ≤ clock.maxOffsetMs

/-- The assessment is healthy exactly for such a clock. -/
theorem ClockHealthSnapshot.healthy_assess_iff (clock : ClockHealthSnapshot) (wallNowMs : Nat) :
    (clock.assess wallNowMs).healthy = true ↔ clock.Sound wallNowMs := by
  constructor
  · intro healthy
    unfold ClockHealthSnapshot.assess at healthy
    dsimp only at healthy
    by_cases inPast : 0 < clock.checkedAtWallMs ∧ clock.checkedAtWallMs ≤ wallNowMs
    · rw [if_pos inPast] at healthy
      dsimp only at healthy
      split_ifs at healthy with stale unverified unsynchronized
      split at healthy
      · exact absurd healthy Bool.false_ne_true
      · next offset isOffset =>
          split_ifs at healthy with far
          split at healthy
          · exact absurd healthy Bool.false_ne_true
          · next bound isBound =>
              split_ifs at healthy with wide
              refine ⟨⟨inPast.1, inPast.2, ?_⟩, ?_, ?_, ⟨offset, isOffset, not_lt.mp far⟩,
                bound, isBound, not_lt.mp wide⟩
              · simpa using stale
              · simpa using unverified
              · simpa using unsynchronized
    · rw [if_neg inPast] at healthy
      exact absurd healthy Bool.false_ne_true
  · rintro ⟨⟨positive, past, recent⟩, verified, synchronized, ⟨offset, isOffset, near⟩, bound,
      isBound, narrow⟩
    simp [ClockHealthSnapshot.assess, positive, past, recent, verified, synchronized,
      Option.mem_def.mp isOffset, Option.mem_def.mp isBound, not_lt.mpr near, not_lt.mpr narrow]

/-! ## The journal -/

/-- A guard of the stream is taken or dropped. -/
def Entry.Guards (stream : Stream) (entry : Entry) : Prop :=
  entry = .connected stream ∨ entry = .disconnected stream

/-- A market event of the stream is offered. -/
def Entry.Hears (stream : Stream) (entry : Entry) : Prop :=
  ∃ event outcome nowMs, entry = .offered (.market event) outcome nowMs ∧
    (event.provider, event.key.coin) = stream

/-- An event of the stream is dropped with the stamp. -/
def Entry.Drops (stream : Stream) (stampMs : Nat) (entry : Entry) : Prop :=
  ∃ event nowMs, entry = .offered event .full nowMs ∧ event.stream = stream ∧
    event.dropStampMs nowMs = stampMs

/-- The stream is connected, and since it connected it last heard of the event. -/
def HeardSince (journal : List Entry) (stream : Stream) (event : MarketEvent) : Prop :=
  ∃ before between outcome nowMs late,
    journal = before ++ .connected stream :: between ++
      .offered (.market event) outcome nowMs :: late ∧
    (event.provider, event.key.coin) = stream ∧
    (∀ entry ∈ between, ¬entry.Guards stream) ∧
    ∀ entry ∈ late, ¬entry.Guards stream ∧ ¬entry.Hears stream

theorem Entry.not_guards_of_silent {stream : Stream} {entry : Entry}
    (silent : entry.writesUp stream = none) : ¬entry.Guards stream := by
  rintro (rfl | rfl)
  · exact nomatch (if_pos rfl).symm.trans silent
  · exact nomatch (if_pos rfl).symm.trans silent

/-- Who leaves the last message alone is no guard and no market event of the stream. -/
theorem Entry.silent_of_writesMessage {stream : Stream} {entry : Entry}
    (silent : entry.writesMessage stream = none) :
    entry.writesUp stream = none ∧ ¬entry.Hears stream := by
  cases entry with
  | connected other =>
      refine ⟨?_, fun ⟨_, _, _, same, _⟩ => nomatch same⟩
      dsimp only [Entry.writesMessage] at silent
      split_ifs at silent with other
      exact if_neg other
  | disconnected other =>
      refine ⟨?_, fun ⟨_, _, _, same, _⟩ => nomatch same⟩
      dsimp only [Entry.writesMessage] at silent
      split_ifs at silent with other
      exact if_neg other
  | offered event outcome nowMs =>
      refine ⟨rfl, ?_⟩
      rintro ⟨market, _, _, same, own⟩
      cases same
      exact nomatch (if_pos own).symm.trans silent

namespace Collector

variable {collector : Collector} {config : BenchmarkConfig}

/-- A stream that is up and was heard of was heard of on its present connection. -/
theorem Told.heard (told : Told collector) {stream : Stream} {wallMs : Nat}
    (isUp : (collector.signals.streams stream).connectionUp = true)
    (isHeard : (collector.signals.streams stream).lastMessageWallMs = wallMs)
    (positive : 0 < wallMs) :
    ∃ event, HeardSince collector.journal stream event ∧ event.receivedWallMs = wallMs := by
  rw [told.up] at isUp
  rw [told.message] at isHeard
  have wrote : lastWrite (Entry.writesMessage stream) collector.journal = some wallMs := by
    cases last : lastWrite (Entry.writesMessage stream) collector.journal with
    | none =>
        rw [last] at isHeard
        exact absurd isHeard (Nat.ne_of_lt positive)
    | some value =>
        rw [last] at isHeard
        exact congrArg some isHeard
  obtain ⟨early, entry, late, journal, writes, silent⟩ := lastWrite_eq_some_iff.mp wrote
  -- guards write zero, so a market event wrote it
  obtain ⟨event, outcome, nowMs, rfl, own, rfl⟩ : ∃ event outcome nowMs,
      entry = .offered (.market event) outcome nowMs ∧
        (event.provider, event.key.coin) = stream ∧ event.receivedWallMs = wallMs := by
    cases entry with
    | connected other =>
        dsimp only [Entry.writesMessage] at writes
        split_ifs at writes
        exact absurd (Option.some.inj writes) (Nat.ne_of_lt positive)
    | disconnected other =>
        dsimp only [Entry.writesMessage] at writes
        split_ifs at writes
        exact absurd (Option.some.inj writes) (Nat.ne_of_lt positive)
    | offered event outcome nowMs =>
        cases event with
        | market event =>
            dsimp only [Entry.writesMessage] at writes
            split_ifs at writes with own
            exact ⟨event, outcome, nowMs, rfl, own, Option.some.inj writes⟩
        | _ => cases writes
  have quiet : ∀ other ∈ .offered (.market event) outcome nowMs :: late,
      Entry.writesUp stream other = none := by
    intro other member
    rcases List.mem_cons.mp member with rfl | later
    · rfl
    · exact (Entry.silent_of_writesMessage (silent other later)).1
  have connected : lastWrite (Entry.writesUp stream) early = some true := by
    rw [journal, lastWrite_append_of_silent quiet] at isUp
    cases last : lastWrite (Entry.writesUp stream) early with
    | none =>
        rw [last] at isUp
        exact absurd isUp Bool.false_ne_true
    | some value =>
        rw [last] at isUp
        exact congrArg some isUp
  obtain ⟨before, guard, between, rfl, guards, unguarded⟩ := lastWrite_eq_some_iff.mp connected
  have isGuard : guard = .connected stream := by
    cases guard with
    | connected other =>
        dsimp only [Entry.writesUp] at guards
        split_ifs at guards with same
        rw [same]
    | disconnected other =>
        dsimp only [Entry.writesUp] at guards
        split_ifs at guards
        exact absurd (Option.some.inj guards) Bool.false_ne_true
    | offered event outcome nowMs => cases guards
  rw [isGuard] at journal
  refine ⟨event, ⟨before, between, outcome, nowMs, late, journal, own, ?_, ?_⟩, rfl⟩
  · exact fun other member => Entry.not_guards_of_silent (unguarded other member)
  · intro other member
    have ⟨up, unheard⟩ := Entry.silent_of_writesMessage (silent other member)
    exact ⟨Entry.not_guards_of_silent up, unheard⟩

/-- The last drop of a stream is the one its signal shows. -/
theorem Told.lastDrop (told : Told collector) {stream : Stream} {stampMs : Nat}
    {early late : List Entry} {entry : Entry}
    (journal : collector.journal = early ++ entry :: late) (drops : entry.Drops stream stampMs)
    (last : ∀ other ∈ late, ∀ laterMs, ¬other.Drops stream laterMs) :
    (collector.signals.streams stream).lastQueueDropWallMs = stampMs := by
  have wrote : lastWrite (Entry.writesDrop stream) collector.journal = some stampMs := by
    refine lastWrite_eq_some_iff.mpr ⟨early, entry, late, journal, ?_, ?_⟩
    · obtain ⟨event, nowMs, rfl, own, rfl⟩ := drops
      exact if_pos own
    · intro other member
      cases other with
      | offered event outcome nowMs =>
          cases outcome with
          | full =>
              refine if_neg fun own => ?_
              exact last _ member _ ⟨event, nowMs, rfl, own, rfl⟩
          | _ => rfl
      | _ => rfl
  rw [told.drop, wrote]
  rfl

/-- What a complete row of a coin says of a stream of the coin.  Of its drops it speaks of the last
one in the journal only: market events are stamped when received and all others when offered, so
that an earlier drop may have a later stamp. -/
structure Backed (config : BenchmarkConfig) (collector : Collector) (wallNowMs : Nat)
    (stream : Stream) : Prop where
  held : Holding collector.tasks stream
  heard : ∃ event, HeardSince collector.journal stream event ∧
    wallNowMs - event.receivedWallMs ≤ asMillis config.staleAfter
  lossless : ∀ early entry late stampMs, collector.journal = early ++ entry :: late →
    entry.Drops stream stampMs → (∀ other ∈ late, ∀ laterMs, ¬other.Drops stream laterMs) →
    stampMs = 0 ∨ stampMs ≤ wallNowMs ∧ asMillis config.rollingWindow < wallNowMs - stampMs

/-- The healthy signals of a stream are backed by the journal and by its task. -/
theorem backed (told : Told collector) {origin : List StreamTask}
    (guarded : Guarded origin collector) {wallNowMs : Nat} {stream : Stream}
    (isUp : (collector.signals.streams stream).connectionUp = true)
    (isFresh : Benchmark.fresh config (collector.signals.streams stream).snapshot wallNowMs = true)
    (lossless : (collector.signals.streams stream).lastQueueDropWallMs = 0 ∨
      (collector.signals.streams stream).lastQueueDropWallMs ≤ wallNowMs ∧
        asMillis config.rollingWindow <
          wallNowMs - (collector.signals.streams stream).lastQueueDropWallMs) :
    Backed config collector wallNowMs stream where
  held := (guarded.up stream).mp isUp
  heard := by
    unfold Benchmark.fresh streamMessageAgeMs at isFresh
    split_ifs at isFresh with positive
    · obtain ⟨event, heard, received⟩ := told.heard isUp rfl positive
      refine ⟨event, heard, ?_⟩
      rw [received]
      exact of_decide_eq_true isFresh
  lossless := by
    intro early entry late stampMs journal drops last
    rwa [told.lastDrop journal drops last] at lossless

theorem told_of_run {tasks : List StreamTask} {now wallNowMs : Nat} {actions : List Action}
    {final : Collector} (reached : run step (start config tasks now wallNowMs) actions =
      some final) : Told final :=
  run_preserves Told (fun _ _ _ held stepped => held.step stepped)
    (.start config tasks now wallNowMs) reached

theorem guarded_of_run {tasks : List StreamTask} {now wallNowMs : Nat} {actions : List Action}
    {final : Collector} (distinct : (tasks.map StreamTask.stream).Nodup)
    (ready : ∀ task ∈ tasks, task.phase = .ready)
    (reached : run step (start config tasks now wallNowMs) actions = some final) :
    Guarded tasks final :=
  run_preserves (Guarded tasks) (fun _ _ _ held stepped => held.step stepped)
    (.start distinct ready) reached

/-- The books of a box that reads its own service alone. -/
def localBooks : BenchmarkConfig := { Benchmark.bookProcess with vpcLocal := true }

def localTasks : List StreamTask :=
  [{ kind := .quicknode, provider := .quickNodeVpc, coin := "BTC" }]

/-- The task connects, and the main loop records its quote. -/
def localActions : List Action :=
  [.dial 0 5, .connect 0 7, .send (.market (Benchmark.quote .quickNodeVpc "7" 100)) 101,
    .receive .stored]

end Collector

end MarketBenchmark
