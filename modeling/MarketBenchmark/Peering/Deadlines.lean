import MarketBenchmark.Model
import MarketBenchmark.Foundation.Runs

/-!
# Deadlines of the session loops

The loop of a session waits for bytes of the peer, a line of the reference feed
or a tick of its maintenance interval, whichever comes first.  Two of the loops
put a timeout around the read, and arm it again whenever they start to wait.
The tap compares the time of the last bytes with the clock in its maintenance
branch instead.

Time passes only while a loop waits, and it does not pass a timer that is due.
-/

namespace MarketBenchmark

open Foundation.Runs

/-- No frame for this long means a dead subscription. -/
def readDeadline : Nat := fromSecs 30

/-- The timers of a loop: the period of its maintenance interval, the timeout around its read, the
limit that its maintenance branch sets to the time without bytes, and whether a read can take bytes
in without completing. -/
structure LoopTimers where
  period : Nat
  readTimeout : Option Nat
  silenceLimit : Option Nat
  partialReads : Bool
  deriving DecidableEq

/-- The loop of `run_peering_once`. -/
def peeringLoop : LoopTimers where
  period := fromMillis 500
  readTimeout := some readDeadline
  silenceLimit := none
  partialReads := false

/-- The loop of `run_vpc_decoded_once`, which reads whole lines. -/
def vpcDecodedLoop : LoopTimers where
  period := fromMillis 500
  readTimeout := some readDeadline
  silenceLimit := none
  partialReads := true

/-- The loop of `run_peering_tap_once`. -/
def peeringTapLoop : LoopTimers where
  period := fromMillis 100
  readTimeout := none
  silenceLimit := some readDeadline
  partialReads := false

/-- A session between two actions: the clock, when its loop last started to wait, when its
maintenance interval is due, when it last took bytes in, and whether it goes on. -/
structure LoopState where
  now : Nat
  armed : Nat
  nextTick : Nat
  lastBytes : Nat
  running : Bool
  deriving DecidableEq

/-- A session starts to wait; the first tick of an interval is due at once. -/
def LoopState.start (now : Nat) : LoopState where
  now := now
  armed := now
  nextTick := now
  lastBytes := now
  running := true

/-- Time passes, the read takes bytes in, a reference line arrives, the interval ticks, the timeout
elapses, or the session ends because the peer, the reference feed or the consumer is gone. -/
inductive LoopAction where
  | elapse (duration : Nat)
  | bytes (completes : Bool)
  | line
  | tick
  | timeout
  | stop
  deriving DecidableEq

namespace LoopTimers

variable (timers : LoopTimers)

/-- Neither timer is due before the time. -/
def Reaches (state : LoopState) (time : Nat) : Prop :=
  time ≤ state.nextTick ∧ ∀ limit ∈ timers.readTimeout, time ≤ state.armed + limit

instance (state : LoopState) (time : Nat) : Decidable (timers.Reaches state time) :=
  inferInstanceAs (Decidable (_ ∧ _))

/-- The maintenance branch ends the session. -/
def Exceeds (state : LoopState) : Prop :=
  ∃ limit ∈ timers.silenceLimit, limit < state.now - state.lastBytes

instance (state : LoopState) : Decidable (timers.Exceeds state) :=
  inferInstanceAs (Decidable (∃ _ ∈ _, _))

/-- The effect of an action that a running session can take. -/
def step (state : LoopState) : LoopAction → Option LoopState
  | .elapse duration =>
      if state.running ∧ timers.Reaches state (state.now + duration) then
        some { state with now := state.now + duration }
      else none
  | .bytes true =>
      if state.running then some { state with lastBytes := state.now, armed := state.now }
      else none
  | .bytes false =>
      if state.running ∧ timers.partialReads then some { state with lastBytes := state.now }
      else none
  | .line => if state.running then some { state with armed := state.now } else none
  | .tick =>
      if state.running ∧ state.nextTick ≤ state.now then
        if timers.Exceeds state then some { state with running := false }
        else some { state with nextTick := state.nextTick + timers.period, armed := state.now }
      else none
  | .timeout =>
      if state.running ∧ ∃ limit ∈ timers.readTimeout, state.armed + limit ≤ state.now then
        some { state with running := false }
      else none
  | .stop => if state.running then some { state with running := false } else none

/-! ## Invariants -/

/-- The loop started to wait in the past, and its interval is due within a period of that. -/
structure Timed (state : LoopState) : Prop where
  armed_le : state.armed ≤ state.now
  now_le : state.now ≤ state.nextTick
  nextTick_le : state.nextTick ≤ state.armed + timers.period

variable {timers} {state after : LoopState} {action : LoopAction}

theorem Timed.start (now : Nat) : timers.Timed (.start now) where
  armed_le := Nat.le_refl now
  now_le := Nat.le_refl now
  nextTick_le := Nat.le_add_right now timers.period

/-- Only a session that goes on takes an action. -/
theorem running_of_step (stepped : timers.step state action = some after) :
    state.running = true := by
  cases action with
  | bytes completes => cases completes <;> simp_all [step]
  | _ => simp_all [step]

theorem Timed.step (timed : timers.Timed state)
    (stepped : timers.step state action = some after) :
    after.running = true → timers.Timed after := by
  obtain ⟨armed_le, now_le, nextTick_le⟩ := timed
  intro running
  cases action with
  | elapse duration =>
      simp only [LoopTimers.step, Option.ite_none_right_eq_some, Option.some.injEq] at stepped
      obtain ⟨⟨_, within, _⟩, rfl⟩ := stepped
      exact ⟨Nat.le_trans armed_le (Nat.le_add_right _ _), within, nextTick_le⟩
  | bytes completes =>
      cases completes with
      | true =>
          simp only [LoopTimers.step, Option.ite_none_right_eq_some, Option.some.injEq] at stepped
          obtain ⟨_, rfl⟩ := stepped
          exact ⟨Nat.le_refl _, now_le, Nat.le_trans nextTick_le (Nat.add_le_add_right armed_le _)⟩
      | false =>
          simp only [LoopTimers.step, Option.ite_none_right_eq_some, Option.some.injEq] at stepped
          obtain ⟨_, rfl⟩ := stepped
          exact ⟨armed_le, now_le, nextTick_le⟩
  | line =>
      simp only [LoopTimers.step, Option.ite_none_right_eq_some, Option.some.injEq] at stepped
      obtain ⟨_, rfl⟩ := stepped
      exact ⟨Nat.le_refl _, now_le, Nat.le_trans nextTick_le (Nat.add_le_add_right armed_le _)⟩
  | tick =>
      simp only [LoopTimers.step, Option.ite_none_right_eq_some] at stepped
      obtain ⟨⟨_, due⟩, stepped⟩ := stepped
      split at stepped
      · cases stepped
        cases running
      · cases stepped
        exact ⟨Nat.le_refl _, Nat.le_trans now_le (Nat.le_add_right _ _),
          Nat.add_le_add_right due _⟩
  | timeout =>
      simp only [LoopTimers.step, Option.ite_none_right_eq_some, Option.some.injEq] at stepped
      obtain ⟨_, rfl⟩ := stepped
      cases running
  | stop =>
      simp only [LoopTimers.step, Option.ite_none_right_eq_some, Option.some.injEq] at stepped
      obtain ⟨_, rfl⟩ := stepped
      cases running

/-- A timeout that is longer than the period of the interval never elapses. -/
theorem Timed.no_timeout (timed : timers.Timed state)
    (longer : ∀ limit ∈ timers.readTimeout, timers.period < limit) :
    timers.step state .timeout = none := by
  refine if_neg ?_
  rintro ⟨_, limit, isLimit, elapsed⟩
  have period := longer limit isLimit
  have nextTick := timed.nextTick_le
  have now := timed.now_le
  omega

theorem timed_of_run {start : Nat} {schedule : List LoopAction}
    (executed : run timers.step (.start start) schedule = some state)
    (running : state.running = true) : timers.Timed state := by
  have invariant := run_preserves (fun state => state.running = true → timers.Timed state)
    (fun before action after timed stepped => (timed (running_of_step stepped)).step stepped)
    (fun _ => Timed.start start) executed
  exact invariant running

end LoopTimers

/-! ## Silence -/

/-- The time without bytes after an action. -/
def LoopAction.silence (before : Nat) : LoopAction → Nat
  | .elapse duration => before + duration
  | .bytes _ => 0
  | _ => before

/-- How long the peer has been silent at the end of a schedule. -/
def silence (schedule : List LoopAction) : Nat := schedule.foldl LoopAction.silence 0

theorem silence_concat (schedule : List LoopAction) (action : LoopAction) :
    silence (schedule ++ [action]) = action.silence (silence schedule) := by
  rw [silence, List.foldl_append]
  rfl

/-- The time since the last bytes stays within the limit along a run. -/
def NeverSilent (timers : LoopTimers) (start limit : Nat) (schedule : List LoopAction) : Prop :=
  ∀ front state, front <+: schedule → run timers.step (.start start) front = some state →
    state.running = true → state.now - state.lastBytes ≤ limit

namespace LoopTimers

variable {timers : LoopTimers} {state after : LoopState} {action : LoopAction} {start : Nat}
  {schedule : List LoopAction}

theorem silence_step {before : Nat} (same : state.lastBytes + before = state.now)
    (stepped : timers.step state action = some after) :
    after.lastBytes + action.silence before = after.now := by
  cases action with
  | elapse duration =>
      simp only [step, Option.ite_none_right_eq_some, Option.some.injEq] at stepped
      obtain ⟨_, rfl⟩ := stepped
      rw [← same]
      exact (Nat.add_assoc _ _ _).symm
  | bytes completes =>
      cases completes <;>
        simp only [step, Option.ite_none_right_eq_some, Option.some.injEq] at stepped <;>
        obtain ⟨_, rfl⟩ := stepped <;> rfl
  | tick =>
      simp only [step, Option.ite_none_right_eq_some] at stepped
      obtain ⟨_, stepped⟩ := stepped
      split at stepped <;> cases stepped <;> exact same
  | _ =>
      simp only [step, Option.ite_none_right_eq_some, Option.some.injEq] at stepped
      obtain ⟨_, rfl⟩ := stepped
      exact same

/-- The schedule tells how long ago the last bytes came. -/
theorem silence_of_run (executed : run timers.step (.start start) schedule = some state) :
    state.lastBytes + silence schedule = state.now := by
  refine run_induction (fun schedule state => state.lastBytes + silence schedule = state.now)
    rfl (fun schedule before action after _ same stepped => ?_) executed
  rw [silence_concat]
  exact silence_step same stepped

/-- An action that ends the session takes no time and no bytes. -/
theorem silence_of_stopped (stepped : timers.step state action = some after)
    (stopped : after.running = false) (before : Nat) : action.silence before = before := by
  have running := running_of_step stepped
  cases action with
  | elapse duration =>
      simp only [step, Option.ite_none_right_eq_some, Option.some.injEq] at stepped
      obtain ⟨_, rfl⟩ := stepped
      cases running.symm.trans stopped
  | bytes completes =>
      cases completes <;>
        simp only [step, Option.ite_none_right_eq_some, Option.some.injEq] at stepped <;>
        obtain ⟨_, rfl⟩ := stepped <;>
        cases running.symm.trans stopped
  | _ => rfl

/-- The time since the last bytes stays within a limit exactly when the peer is never silent for
longer. -/
theorem neverSilent_iff {limit : Nat}
    (executed : run timers.step (.start start) schedule = some state) :
    NeverSilent timers start limit schedule ↔
      ∀ front, front <+: schedule → silence front ≤ limit := by
  constructor
  · intro bounded front isPrefix
    obtain ⟨back, rfl⟩ := isPrefix
    obtain ⟨reached, toFront, _⟩ := run_append_eq_some executed
    cases running : reached.running with
    | true =>
        have within := bounded front reached (List.prefix_append front back) toFront running
        have same := silence_of_run toFront
        omega
    | false =>
        rcases List.eq_nil_or_concat front with rfl | ⟨earlier, action, concat⟩
        · cases toFront
          cases running
        · rw [List.concat_eq_append] at concat
          subst concat
          obtain ⟨before, toBefore, stepped⟩ := run_concat_eq_some toFront
          have isPrefix : earlier <+: earlier ++ [action] ++ back :=
            ⟨[action] ++ back, (List.append_assoc _ _ _).symm⟩
          have within := bounded earlier before isPrefix toBefore (running_of_step stepped)
          have same := silence_of_run toBefore
          rw [silence_concat, silence_of_stopped stepped running]
          omega
  · intro bounded front reached isPrefix toFront _
    have within := bounded front isPrefix
    have same := silence_of_run toFront
    omega

/-- In a loop whose interval is shorter than its timeout the timeout never elapses. -/
theorem timeout_notMem (longer : ∀ limit ∈ timers.readTimeout, timers.period < limit)
    (executed : run timers.step (.start start) schedule = some state) :
    LoopAction.timeout ∉ schedule := by
  refine run_induction (fun schedule _ => LoopAction.timeout ∉ schedule) (List.not_mem_nil)
    (fun schedule before action after reached notMem stepped => ?_) executed
  rw [List.mem_append, List.mem_singleton, not_or]
  refine ⟨notMem, ?_⟩
  rintro rfl
  have timed := timed_of_run reached (running_of_step stepped)
  rw [timed.no_timeout longer] at stepped
  cases stepped

/-! ## The loop with a limit -/

/-- The next tick is due within a period of the time to which bytes are awaited. -/
structure Watched (timers : LoopTimers) (limit : Nat) (state : LoopState) : Prop where
  lastBytes_le : state.lastBytes ≤ state.now
  nextTick_le : state.nextTick ≤ state.lastBytes + limit + timers.period

theorem Watched.step {limit : Nat} (limited : timers.silenceLimit = some limit)
    (watched : Watched timers limit state)
    (stepped : timers.step state action = some after) :
    after.running = true → Watched timers limit after := by
  obtain ⟨lastBytes_le, nextTick_le⟩ := watched
  intro running
  have earlier : state.nextTick ≤ state.now + limit + timers.period :=
    Nat.le_trans nextTick_le
      (Nat.add_le_add_right (Nat.add_le_add_right lastBytes_le limit) timers.period)
  cases action with
  | elapse duration =>
      simp only [LoopTimers.step, Option.ite_none_right_eq_some, Option.some.injEq] at stepped
      obtain ⟨_, rfl⟩ := stepped
      exact ⟨Nat.le_trans lastBytes_le (Nat.le_add_right _ _), nextTick_le⟩
  | bytes completes =>
      cases completes <;>
        simp only [LoopTimers.step, Option.ite_none_right_eq_some, Option.some.injEq] at stepped <;>
        obtain ⟨_, rfl⟩ := stepped <;>
        exact ⟨Nat.le_refl _, earlier⟩
  | line =>
      simp only [LoopTimers.step, Option.ite_none_right_eq_some, Option.some.injEq] at stepped
      obtain ⟨_, rfl⟩ := stepped
      exact ⟨lastBytes_le, nextTick_le⟩
  | tick =>
      simp only [LoopTimers.step, Option.ite_none_right_eq_some] at stepped
      obtain ⟨⟨_, due⟩, stepped⟩ := stepped
      split at stepped
      · cases stepped
        cases running
      next within =>
        cases stepped
        -- the check that lets the session go on bounds the silence at this tick
        have checked : state.now - state.lastBytes ≤ limit := by
          by_contra exceeds
          exact within ⟨limit, limited, Nat.not_le.mp exceeds⟩
        have early : state.nextTick ≤ state.lastBytes + limit := by omega
        exact ⟨lastBytes_le, Nat.add_le_add_right early _⟩
  | timeout =>
      simp only [LoopTimers.step, Option.ite_none_right_eq_some, Option.some.injEq] at stepped
      obtain ⟨_, rfl⟩ := stepped
      cases running
  | stop =>
      simp only [LoopTimers.step, Option.ite_none_right_eq_some, Option.some.injEq] at stepped
      obtain ⟨_, rfl⟩ := stepped
      cases running

theorem watched_of_run {limit : Nat} (limited : timers.silenceLimit = some limit)
    (executed : run timers.step (.start start) schedule = some state)
    (running : state.running = true) : Watched timers limit state := by
  refine run_preserves (fun state => state.running = true → Watched timers limit state)
    (fun before action after watched stepped =>
      (watched (running_of_step stepped)).step limited stepped)
    (fun _ => ⟨Nat.le_refl start, ?_⟩) executed running
  exact Nat.le_trans (Nat.le_add_right start limit) (Nat.le_add_right _ _)

end LoopTimers

/-- A tap without bytes ends within a period of the limit. -/
theorem peeringTapLoop_neverSilent (start : Nat) (schedule : List LoopAction) :
    NeverSilent peeringTapLoop start (readDeadline + peeringTapLoop.period) schedule := by
  intro front state _ executed running
  have watched : LoopTimers.Watched peeringTapLoop readDeadline state :=
    LoopTimers.watched_of_run rfl executed running
  have timed := LoopTimers.timed_of_run executed running
  have nextTick := watched.nextTick_le
  have now := timed.now_le
  omega

/-! ## The outside of a session -/

/-- Something that reaches a session: bytes of the peer or a line of the reference feed. -/
inductive Arrival where
  | bytes (completes : Bool)
  | line
  deriving DecidableEq

/-- What the outside does to a session: each arrival with the time that it let pass before,
the time that it let pass since, and whether it then ended the session. -/
@[ext]
structure Outside where
  arrivals : List (Nat × Arrival)
  wait : Nat
  ended : Bool
  deriving DecidableEq

/-- The time without bytes after an arrival. -/
def Arrival.silence (before : Nat) : Arrival → Nat
  | .bytes _ => 0
  | .line => before

namespace Outside

/-- How long the peer had been silent at each arrival. -/
def silences : Nat → List (Nat × Arrival) → List Nat
  | _, [] => []
  | before, (wait, arrival) :: rest =>
      (before + wait) :: silences (arrival.silence (before + wait)) rest

/-- How long the peer is silent after the last arrival. -/
def quiet : Nat → List (Nat × Arrival) → Nat
  | before, [] => before
  | before, (wait, arrival) :: rest => quiet (arrival.silence (before + wait)) rest

/-- The peer is nowhere silent for longer than the limit. -/
def Within (outside : Outside) (limit : Nat) : Prop :=
  (∀ silence ∈ silences 0 outside.arrivals, silence ≤ limit) ∧
    quiet 0 outside.arrivals + outside.wait ≤ limit

instance (outside : Outside) (limit : Nat) : Decidable (outside.Within limit) :=
  inferInstanceAs (Decidable (_ ∧ _))

/-- Only a loop that takes bytes in without completing a read can be sent some that do not. -/
def Fits (outside : Outside) (timers : LoopTimers) : Prop :=
  ∀ arrival ∈ outside.arrivals, arrival.2 = .bytes false → timers.partialReads = true

instance (outside : Outside) (timers : LoopTimers) : Decidable (outside.Fits timers) :=
  inferInstanceAs (Decidable (∀ _ ∈ _, _ → _))

/-- The share of the outside in an action; a tick and a timeout are the loop's own. -/
def next (outside : Outside) : LoopAction → Outside
  | .elapse duration => { outside with wait := outside.wait + duration }
  | .bytes completes =>
      { outside with arrivals := outside.arrivals ++ [(outside.wait, .bytes completes)], wait := 0 }
  | .line => { outside with arrivals := outside.arrivals ++ [(outside.wait, .line)], wait := 0 }
  | .tick => outside
  | .timeout => outside
  | .stop => { outside with ended := true }

theorem silences_concat (before : Nat) (arrivals : List (Nat × Arrival)) (wait : Nat)
    (arrival : Arrival) :
    silences before (arrivals ++ [(wait, arrival)]) =
      silences before arrivals ++ [quiet before arrivals + wait] := by
  induction arrivals generalizing before with
  | nil => rfl
  | cons first rest ih => exact congrArg (List.cons _) (ih _)

theorem quiet_concat (before : Nat) (arrivals : List (Nat × Arrival)) (wait : Nat)
    (arrival : Arrival) :
    quiet before (arrivals ++ [(wait, arrival)]) =
      arrival.silence (quiet before arrivals + wait) := by
  induction arrivals generalizing before with
  | nil => rfl
  | cons first rest ih => exact ih _

end Outside

/-- The share of the outside in a schedule. -/
def outside (schedule : List LoopAction) : Outside :=
  schedule.foldl Outside.next ⟨[], 0, false⟩

theorem outside_concat (schedule : List LoopAction) (action : LoopAction) :
    outside (schedule ++ [action]) = (outside schedule).next action := by
  unfold outside
  rw [List.foldl_append]
  rfl

/-- The outside alone makes the silence. -/
theorem silence_eq (schedule : List LoopAction) :
    silence schedule =
      Outside.quiet 0 (outside schedule).arrivals + (outside schedule).wait := by
  induction schedule using List.reverseRecOn with
  | nil => rfl
  | append_singleton front action ih =>
      rw [silence_concat, outside_concat, ih]
      cases action with
      | elapse duration => exact Nat.add_assoc _ _ _
      | bytes completes => exact (Outside.quiet_concat 0 _ _ (.bytes completes)).symm
      | line => exact (Outside.quiet_concat 0 _ _ .line).symm
      | tick => rfl
      | timeout => rfl
      | stop => rfl

theorem outside_within_iff (schedule : List LoopAction) (limit : Nat) :
    (outside schedule).Within limit ↔ ∀ front, front <+: schedule → silence front ≤ limit := by
  induction schedule using List.reverseRecOn with
  | nil =>
      refine ⟨fun _ front isPrefix => ?_, fun _ => ⟨nofun, Nat.zero_le limit⟩⟩
      rw [List.prefix_nil.mp isPrefix]
      exact Nat.zero_le limit
  | append_singleton front action ih =>
      have prefixes : (∀ other, other <+: front ++ [action] → silence other ≤ limit) ↔
          silence (front ++ [action]) ≤ limit ∧
            ∀ other, other <+: front → silence other ≤ limit := by
        simp only [List.prefix_concat_iff, or_imp, forall_and, forall_eq]
      rw [prefixes, ← ih, silence_eq, outside_concat]
      have arrived : ∀ arrival : Arrival,
          Outside.Within ⟨(outside front).arrivals ++ [((outside front).wait, arrival)], 0,
              (outside front).ended⟩ limit ↔
            Outside.quiet 0 ((outside front).arrivals ++ [((outside front).wait, arrival)]) + 0 ≤
              limit ∧ (outside front).Within limit := by
        intro arrival
        unfold Outside.Within
        rw [Outside.silences_concat, List.forall_mem_append, List.forall_mem_singleton]
        exact and_comm
      cases action with
      | elapse duration =>
          unfold Outside.Within Outside.next
          dsimp only
          constructor
          · exact fun ⟨earlier, last⟩ => ⟨last, earlier, by omega⟩
          · exact fun ⟨last, earlier, _⟩ => ⟨earlier, last⟩
      | bytes completes => exact arrived (.bytes completes)
      | line => exact arrived .line
      | tick => exact ⟨fun within => ⟨within.2, within⟩, And.right⟩
      | timeout => exact ⟨fun within => ⟨within.2, within⟩, And.right⟩
      | stop => exact ⟨fun within => ⟨within.2, within⟩, And.right⟩

/-! ## Loops that never end a session -/

namespace LoopTimers

/-- The interval ticks before the timeout can elapse, and its branch ends no session. -/
structure Endless (timers : LoopTimers) : Prop where
  period : 0 < timers.period
  timeout : ∀ limit ∈ timers.readTimeout, timers.period < limit
  unlimited : timers.silenceLimit = none

theorem peeringLoop_endless : peeringLoop.Endless :=
  ⟨by decide, by decide, rfl⟩

theorem vpcDecodedLoop_endless : vpcDecodedLoop.Endless :=
  ⟨by decide, by decide, rfl⟩

variable {timers : LoopTimers} {state after : LoopState} {action : LoopAction}

/-- The tick of an endless loop lets the session go on. -/
theorem Endless.step_tick (endless : timers.Endless) (running : state.running = true)
    (due : state.nextTick ≤ state.now) :
    timers.step state .tick =
      some { state with nextTick := state.nextTick + timers.period, armed := state.now } := by
  have within : ¬timers.Exceeds state := by
    rintro ⟨limit, isLimit, _⟩
    rw [endless.unlimited] at isLimit
    cases isLimit
  exact (if_pos ⟨running, due⟩).trans (if_neg within)

/-- Only the outside ends a session of an endless loop. -/
theorem Endless.running_step (endless : timers.Endless) (timed : timers.Timed state)
    (stepped : timers.step state action = some after) :
    after.running = false ↔ action = .stop := by
  have running := running_of_step stepped
  cases action with
  | elapse duration =>
      simp only [step, Option.ite_none_right_eq_some, Option.some.injEq] at stepped
      obtain ⟨_, rfl⟩ := stepped
      exact iff_of_false (fun stopped => Bool.false_ne_true (stopped.symm.trans running)) nofun
  | bytes completes =>
      cases completes <;>
        simp only [step, Option.ite_none_right_eq_some, Option.some.injEq] at stepped <;>
        obtain ⟨_, rfl⟩ := stepped <;>
        exact iff_of_false (fun stopped => Bool.false_ne_true (stopped.symm.trans running)) nofun
  | line =>
      simp only [step, Option.ite_none_right_eq_some, Option.some.injEq] at stepped
      obtain ⟨_, rfl⟩ := stepped
      exact iff_of_false (fun stopped => Bool.false_ne_true (stopped.symm.trans running)) nofun
  | tick =>
      have due : state.nextTick ≤ state.now := by
        by_contra early
        cases (if_neg fun both => early both.2).symm.trans stepped
      cases (endless.step_tick running due).symm.trans stepped
      exact iff_of_false (fun stopped => Bool.false_ne_true (stopped.symm.trans running)) nofun
  | timeout =>
      rw [timed.no_timeout endless.timeout] at stepped
      cases stepped
  | stop =>
      simp only [step, Option.ite_none_right_eq_some, Option.some.injEq] at stepped
      obtain ⟨_, rfl⟩ := stepped
      exact iff_of_true rfl rfl

/-- A session of an endless loop goes on exactly as long as the outside does not end it. -/
theorem Endless.running_iff (endless : timers.Endless) {start : Nat}
    {schedule : List LoopAction}
    (executed : run timers.step (.start start) schedule = some state) :
    state.running = false ↔ LoopAction.stop ∈ schedule := by
  refine run_induction
    (fun schedule state => state.running = false ↔ LoopAction.stop ∈ schedule)
    (iff_of_false Bool.noConfusion List.not_mem_nil)
    (fun schedule before action after reached same stepped => ?_) executed
  have running := running_of_step stepped
  have notBefore : LoopAction.stop ∉ schedule := fun member =>
    Bool.false_ne_true ((same.mpr member).symm.trans running)
  rw [endless.running_step (timed_of_run reached running) stepped, List.mem_append,
    List.mem_singleton, or_iff_right notBefore, eq_comm]

/-- A session that goes on and whose interval is not due. -/
structure Waiting (timers : LoopTimers) (state : LoopState) : Prop where
  running : state.running = true
  timed : timers.Timed state
  early : state.now < state.nextTick

theorem Endless.exists_ticked (endless : timers.Endless) (timed : timers.Timed state)
    (running : state.running = true) (due : state.nextTick ≤ state.now) :
    ∃ after, timers.step state .tick = some after ∧ timers.Waiting after := by
  have ticked := endless.step_tick running due
  refine ⟨_, ticked, running, timed.step ticked running, ?_⟩
  exact Nat.lt_of_le_of_lt timed.now_le (Nat.lt_add_of_pos_right endless.period)

/-- An endless loop lets any time pass, tick by tick. -/
theorem Endless.exists_passing (endless : timers.Endless) (duration : Nat)
    (waiting : timers.Waiting state) :
    ∃ schedule after, run timers.step state schedule = some after ∧ timers.Waiting after ∧
      ∀ outside : Outside, schedule.foldl Outside.next outside =
        { outside with wait := outside.wait + duration } := by
  induction duration using Nat.strong_induction_on generalizing state with
  | _ duration ih =>
      obtain ⟨running, timed, early⟩ := waiting
      have reaches : ∀ time ≤ state.nextTick, timers.Reaches state time := by
        intro time le
        refine ⟨le, fun limit isLimit => ?_⟩
        have longer := endless.timeout limit isLimit
        have nextTick := timed.nextTick_le
        omega
      by_cases short : state.now + duration < state.nextTick
      · have stepped : timers.step state (.elapse duration) =
            some { state with now := state.now + duration } :=
          if_pos ⟨running, reaches _ (Nat.le_of_lt short)⟩
        refine ⟨[.elapse duration], _, (run_singleton state _).trans stepped, ?_, fun _ => rfl⟩
        exact ⟨running, timed.step stepped running, short⟩
      · -- up to the tick, and from there the rest of the time
        have first : timers.step state (.elapse (state.nextTick - state.now)) =
            some { state with now := state.nextTick } := by
          have sum : state.now + (state.nextTick - state.now) = state.nextTick := by omega
          refine (if_pos ⟨running, ?_⟩).trans (by rw [sum])
          rw [sum]
          exact reaches _ (Nat.le_refl _)
        obtain ⟨ticked, tick, waitingTicked⟩ :=
          endless.exists_ticked (timed.step first running) running (Nat.le_refl state.nextTick)
        obtain ⟨schedule, after, executed, waiting, shares⟩ :=
          ih (duration - (state.nextTick - state.now)) (by omega) waitingTicked
        refine ⟨.elapse (state.nextTick - state.now) :: .tick :: schedule, after, ?_, waiting,
          fun outside => ?_⟩
        · rw [run_cons, first, Option.bind_some, run_cons, tick]
          exact executed
        · refine (shares _).trans ?_
          have total : outside.wait + (state.nextTick - state.now) +
              (duration - (state.nextTick - state.now)) = outside.wait + duration := by omega
          rw [← total]
          rfl

/-- An endless loop takes in whatever arrives. -/
theorem Endless.exists_arriving (endless : timers.Endless)
    {arrivals : List (Nat × Arrival)}
    (fits : ∀ arrival ∈ arrivals, arrival.2 = .bytes false → timers.partialReads = true)
    (waiting : timers.Waiting state) :
    ∃ schedule after, run timers.step state schedule = some after ∧ timers.Waiting after ∧
      ∀ front ended, schedule.foldl Outside.next ⟨front, 0, ended⟩ =
        ⟨front ++ arrivals, 0, ended⟩ := by
  induction arrivals generalizing state with
  | nil => exact ⟨[], state, rfl, waiting, fun front ended => by rw [List.append_nil]; rfl⟩
  | cons first rest ih =>
      obtain ⟨wait, arrival⟩ := first
      obtain ⟨passing, middle, passed, ready, waits⟩ := endless.exists_passing wait waiting
      have arrives : ∃ action after, timers.step middle action = some after ∧
          timers.Waiting after ∧ ∀ front ended,
            Outside.next ⟨front, wait, ended⟩ action = ⟨front ++ [(wait, arrival)], 0, ended⟩ := by
        obtain ⟨running, timed, early⟩ := ready
        cases arrival with
        | line =>
            have stepped : timers.step middle .line = some { middle with armed := middle.now } :=
              if_pos running
            exact ⟨.line, _, stepped, ⟨running, timed.step stepped running, early⟩, fun _ _ => rfl⟩
        | bytes completes =>
            cases completes with
            | true =>
                have stepped : timers.step middle (.bytes true) =
                    some { middle with lastBytes := middle.now, armed := middle.now } :=
                  if_pos running
                exact ⟨.bytes true, _, stepped, ⟨running, timed.step stepped running, early⟩,
                  fun _ _ => rfl⟩
            | false =>
                have stepped : timers.step middle (.bytes false) =
                    some { middle with lastBytes := middle.now } :=
                  if_pos ⟨running, fits _ List.mem_cons_self rfl⟩
                exact ⟨.bytes false, _, stepped, ⟨running, timed.step stepped running, early⟩,
                  fun _ _ => rfl⟩
      obtain ⟨action, next, stepped, waitingNext, adds⟩ := arrives
      obtain ⟨schedule, after, executed, waitingAfter, shares⟩ :=
        ih (fun other member => fits other (List.mem_cons_of_mem _ member)) waitingNext
      refine ⟨passing ++ action :: schedule, after, ?_, waitingAfter, fun front ended => ?_⟩
      · rw [run_append, passed, Option.bind_some, run_cons, stepped]
        exact executed
      · have waited := waits ⟨front, 0, ended⟩
        rw [Nat.zero_add] at waited
        rw [List.foldl_append, waited, List.foldl_cons, adds, shares, List.append_assoc]
        rfl

/-- Every outside has a session of an endless loop that goes on for as long as it lets it. -/
theorem Endless.exists_session (endless : timers.Endless) (start : Nat) {given : Outside}
    (fits : given.Fits timers) :
    ∃ schedule state, run timers.step (.start start) schedule = some state ∧
      outside schedule = given ∧ state.running = !given.ended := by
  obtain ⟨first, tick, waiting⟩ :=
    endless.exists_ticked (Timed.start start) rfl (Nat.le_refl start)
  obtain ⟨arriving, middle, arrived, ready, shares⟩ := endless.exists_arriving fits waiting
  obtain ⟨passing, last, passed, lastWaiting, waits⟩ := endless.exists_passing given.wait ready
  have executed : run timers.step (.start start) (.tick :: (arriving ++ passing)) = some last := by
    rw [run_cons, tick, Option.bind_some, run_append, arrived]
    exact passed
  have same : outside (.tick :: (arriving ++ passing)) =
      ⟨given.arrivals, given.wait, false⟩ := by
    have fed := shares [] false
    have waited := waits ⟨given.arrivals, 0, false⟩
    rw [Nat.zero_add] at waited
    refine (List.foldl_append).trans ((congrArg (passing.foldl Outside.next) fed).trans waited)
  cases ended : given.ended with
  | false =>
      refine ⟨_, last, executed, same.trans ?_, lastWaiting.running⟩
      rw [← ended]
  | true =>
      have stopped : timers.step last .stop = some { last with running := false } :=
        if_pos lastWaiting.running
      refine ⟨_, _, run_concat_of_step executed stopped, ?_, rfl⟩
      rw [outside_concat, same]
      exact Outside.ext rfl rfl ended.symm

end LoopTimers

/--
The two loops with a timeout around the read never see it elapse, and only the outside ends
their sessions.  Whatever the outside does, there is a session that bears it to the end.  So
all sessions stay within the deadline and a period without bytes exactly where the outside
itself never makes a longer silence.
-/
theorem silent_sessions_iff {timers : LoopTimers}
    (loop : timers = peeringLoop ∨ timers = vpcDecodedLoop) (start : Nat) :
    (∀ schedule state, run timers.step (.start start) schedule = some state →
      LoopAction.timeout ∉ schedule ∧ (state.running = false ↔ LoopAction.stop ∈ schedule)) ∧
    ∀ given : Outside, given.Fits timers →
      (∃ schedule state, run timers.step (.start start) schedule = some state ∧
        outside schedule = given ∧ state.running = !given.ended) ∧
      ((∀ schedule state, run timers.step (.start start) schedule = some state →
          outside schedule = given →
          NeverSilent timers start (readDeadline + fromMillis 500) schedule) ↔
        given.Within (readDeadline + fromMillis 500)) := by
  have endless : timers.Endless := by
    rcases loop with rfl | rfl
    · exact LoopTimers.peeringLoop_endless
    · exact LoopTimers.vpcDecodedLoop_endless
  refine ⟨fun schedule state executed => ?_, fun given fits => ⟨?_, fun bounded => ?_, ?_⟩⟩
  · exact ⟨LoopTimers.timeout_notMem endless.timeout executed, endless.running_iff executed⟩
  · exact endless.exists_session start fits
  · obtain ⟨schedule, state, executed, same, _⟩ := endless.exists_session start fits
    have never := bounded schedule state executed same
    rw [← same, outside_within_iff]
    exact (LoopTimers.neverSilent_iff executed).mp never
  · rintro within schedule state executed rfl
    exact (LoopTimers.neverSilent_iff executed).mpr ((outside_within_iff schedule _).mp within)

/-- The reference feed goes on while the peer is silent for 31 seconds. -/
def silentPeer : Outside where
  arrivals := [(fromMillis 400, .bytes true), (fromSecs 20, .line)]
  wait := fromSecs 11
  ended := false

/-- The same, but with bytes beside the line. -/
def livelyPeer : Outside where
  arrivals := [(fromMillis 400, .bytes true), (fromSecs 20, .line), (0, .bytes true)]
  wait := fromSecs 11
  ended := false

/-- A session with the silent peer outlives the deadline, and none with the lively one. -/
theorem silent_sessions_sample :
    (¬∀ schedule state, run peeringLoop.step (.start 0) schedule = some state →
      outside schedule = silentPeer →
      NeverSilent peeringLoop 0 (readDeadline + fromMillis 500) schedule) ∧
    (∀ schedule state, run peeringLoop.step (.start 0) schedule = some state →
      outside schedule = livelyPeer →
      NeverSilent peeringLoop 0 (readDeadline + fromMillis 500) schedule) ∧
    ¬∀ schedule state, run vpcDecodedLoop.step (.start 0) schedule = some state →
      outside schedule = silentPeer →
      NeverSilent vpcDecodedLoop 0 (readDeadline + fromMillis 500) schedule := by
  obtain ⟨_, ofDialed⟩ := silent_sessions_iff (Or.inl rfl : peeringLoop = peeringLoop ∨ _) 0
  obtain ⟨_, ofDecoded⟩ :=
    silent_sessions_iff (Or.inr rfl : vpcDecodedLoop = peeringLoop ∨ _) 0
  refine ⟨fun bounded => ?_, (ofDialed livelyPeer (by decide)).2.mpr (by decide),
    fun bounded => ?_⟩
  · exact absurd ((ofDialed silentPeer (by decide)).2.mp bounded) (by decide)
  · exact absurd ((ofDecoded silentPeer (by decide)).2.mp bounded) (by decide)

/-- The peer sends nothing for 31 seconds. -/
def silentSchedule : List LoopAction :=
  .tick :: (List.replicate 62 [.elapse (fromMillis 500), .tick]).flatten

theorem silent_sessions_go_on :
    ¬(∀ start schedule, NeverSilent peeringLoop start (readDeadline + fromMillis 500) schedule) ∧
    ¬(∀ start schedule,
      NeverSilent vpcDecodedLoop start (readDeadline + fromMillis 500) schedule) := by
  have reached : ∀ timers, timers = peeringLoop ∨ timers = vpcDecodedLoop →
      run timers.step (.start 0) silentSchedule =
        some ⟨fromSecs 31, fromSecs 31, fromMillis 31500, 0, true⟩ := by
    rintro timers (rfl | rfl) <;> decide +kernel
  constructor
  · intro bounded
    have within := bounded 0 silentSchedule silentSchedule _ (List.prefix_refl _)
      (reached peeringLoop (Or.inl rfl)) rfl
    exact absurd within (by decide)
  · intro bounded
    have within := bounded 0 silentSchedule silentSchedule _ (List.prefix_refl _)
      (reached vpcDecodedLoop (Or.inr rfl)) rfl
    exact absurd within (by decide)

end MarketBenchmark
