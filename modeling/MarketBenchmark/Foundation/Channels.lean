import Mathlib

/-!
# Bounded channels

Many senders and one receiver share a queue of bounded length.  A sender never
waits: an item that finds the queue full or the receiver gone comes back at
once.  The history of a channel lists what was offered, with what became of it,
and what was received; the rules below say that the queue is what was taken in
and not received yet.
-/

namespace MarketBenchmark.Foundation.Channels

variable {Item : Type*}

structure Channel (Item : Type*) where
  capacity : Nat
  items : List Item
  closed : Bool

/-- What became of an offered item. -/
inductive Outcome where
  | sent
  | full
  | closed
  deriving DecidableEq, Repr

namespace Channel

/-- An open channel with nothing in it. -/
def empty (capacity : Nat) : Channel Item where
  capacity := capacity
  items := []
  closed := false

def trySend (channel : Channel Item) (item : Item) : Channel Item × Outcome :=
  if channel.closed then (channel, .closed)
  else if channel.items.length < channel.capacity then
    ({ channel with items := channel.items ++ [item] }, .sent)
  else (channel, .full)

/-- The receiver takes the oldest item. -/
def receive (channel : Channel Item) : Option (Item × Channel Item) :=
  match channel.items with
  | [] => none
  | item :: rest => some (item, { channel with items := rest })

/-- The receiver goes away. -/
def close (channel : Channel Item) : Channel Item := { channel with closed := true }

@[simp]
theorem trySend_capacity (channel : Channel Item) (item : Item) :
    (channel.trySend item).1.capacity = channel.capacity := by
  unfold trySend
  split_ifs <;> rfl

@[simp]
theorem trySend_closed (channel : Channel Item) (item : Item) :
    (channel.trySend item).1.closed = channel.closed := by
  unfold trySend
  split_ifs <;> rfl

/-- The three ways an offer ends. -/
theorem trySend_cases (channel : Channel Item) (item : Item) :
    (channel.trySend item = (channel, .closed) ∧ channel.closed = true) ∨
    (channel.trySend item = ({ channel with items := channel.items ++ [item] }, .sent) ∧
      channel.closed = false ∧ channel.items.length < channel.capacity) ∨
    (channel.trySend item = (channel, .full) ∧ channel.closed = false ∧
      channel.capacity ≤ channel.items.length) := by
  unfold trySend
  cases gone : channel.closed with
  | true => exact Or.inl ⟨if_pos rfl, rfl⟩
  | false =>
      rw [if_neg Bool.false_ne_true]
      by_cases room : channel.items.length < channel.capacity
      · exact Or.inr (Or.inl ⟨if_pos room, rfl, room⟩)
      · exact Or.inr (Or.inr ⟨if_neg room, rfl, Nat.le_of_not_lt room⟩)

theorem receive_eq_some {channel next : Channel Item} {item : Item}
    (received : channel.receive = some (item, next)) :
    channel.items = item :: next.items ∧ next.capacity = channel.capacity ∧
      next.closed = channel.closed := by
  unfold receive at received
  split at received
  · cases received
  · next items =>
      cases received
      exact ⟨items, rfl, rfl⟩

end Channel

/-! ## Histories -/

/-- What was offered to a channel, with the outcome, and what was received from it. -/
structure History (Item : Type*) where
  offers : List (Item × Outcome)
  received : List Item

namespace History

def start : History Item where
  offers := []
  received := []

def offer (history : History Item) (item : Item) (outcome : Outcome) : History Item :=
  { history with offers := history.offers ++ [(item, outcome)] }

def take (history : History Item) (item : Item) : History Item :=
  { history with received := history.received ++ [item] }

/-- The offered items with the given outcome, in the order of the offers. -/
def withOutcome (history : History Item) (outcome : Outcome) : List Item :=
  (history.offers.filter fun offer => offer.2 = outcome).map Prod.fst

def offered (history : History Item) : List Item := history.offers.map Prod.fst

theorem withOutcome_offer (history : History Item) (item : Item) (outcome other : Outcome) :
    (history.offer item outcome).withOutcome other =
      history.withOutcome other ++ if outcome = other then [item] else [] := by
  unfold withOutcome offer
  rw [List.filter_append, List.map_append, List.filter_singleton]
  by_cases same : outcome = other
  · rw [if_pos same, decide_eq_true same]
    rfl
  · rw [if_neg same, decide_eq_false same]
    rfl

/-- What was taken in was offered in that order. -/
theorem withOutcome_sublist (history : History Item) (outcome : Outcome) :
    (history.withOutcome outcome).Sublist history.offered :=
  List.filter_sublist.map Prod.fst

/-- Every offer has one of the three outcomes. -/
theorem sum_offered {Measured : Type*} [AddCommMonoid Measured] (history : History Item)
    (measure : Item → Measured) :
    (history.offered.map measure).sum =
      ((history.withOutcome .sent).map measure).sum +
        ((history.withOutcome .full).map measure).sum +
          ((history.withOutcome .closed).map measure).sum := by
  unfold offered withOutcome
  induction history.offers with
  | nil => simp
  | cons offer rest ih =>
      obtain ⟨item, outcome⟩ := offer
      rw [List.map_cons, List.map_cons, List.sum_cons, ih]
      cases outcome <;> simp <;> abel

end History

/-! ## The invariant -/

/-- The queue holds what was taken in and not received yet, and fits its bound. -/
structure Carries (history : History Item) (channel : Channel Item) : Prop where
  bounded : channel.items.length ≤ channel.capacity
  taken : history.withOutcome .sent = history.received ++ channel.items

namespace Carries

variable {history : History Item} {channel : Channel Item}

theorem empty (capacity : Nat) : Carries History.start (Channel.empty capacity : Channel Item) where
  bounded := Nat.zero_le capacity
  taken := rfl

theorem trySend (carries : Carries history channel) (item : Item) :
    Carries (history.offer item (channel.trySend item).2) (channel.trySend item).1 := by
  rcases channel.trySend_cases item with ⟨same, _⟩ | ⟨same, _, room⟩ | ⟨same, _⟩
  · rw [same]
    refine ⟨carries.bounded, ?_⟩
    rw [History.withOutcome_offer, if_neg (fun same => nomatch same), List.append_nil]
    exact carries.taken
  · rw [same]
    refine ⟨?_, ?_⟩
    · rw [List.length_append]
      exact room
    · rw [History.withOutcome_offer, if_pos rfl, carries.taken, List.append_assoc]
      rfl
  · rw [same]
    refine ⟨carries.bounded, ?_⟩
    rw [History.withOutcome_offer, if_neg (fun same => nomatch same), List.append_nil]
    exact carries.taken

theorem receive (carries : Carries history channel) {item : Item} {next : Channel Item}
    (received : channel.receive = some (item, next)) : Carries (history.take item) next := by
  obtain ⟨items, capacity, _⟩ := Channel.receive_eq_some received
  have bounded := carries.bounded
  have taken := carries.taken
  rw [items] at bounded taken
  refine ⟨capacity ▸ Nat.le_of_succ_le bounded, ?_⟩
  change history.withOutcome .sent = (history.received ++ [item]) ++ next.items
  rw [taken, List.append_assoc]
  rfl

theorem close (carries : Carries history channel) : Carries history channel.close :=
  ⟨carries.bounded, carries.taken⟩

/-- What was received was offered in that order. -/
theorem received_sublist (carries : Carries history channel) :
    (history.received ++ channel.items).Sublist history.offered :=
  carries.taken ▸ history.withOutcome_sublist .sent

/-- Every offered item was received, is queued, or came back. -/
theorem sum_offered {Measured : Type*} [AddCommMonoid Measured]
    (carries : Carries history channel) (measure : Item → Measured) :
    (history.offered.map measure).sum =
      (history.received.map measure).sum + (channel.items.map measure).sum +
        ((history.withOutcome .full).map measure).sum +
          ((history.withOutcome .closed).map measure).sum := by
  rw [history.sum_offered, carries.taken, List.map_append, List.sum_append]

end Carries

end MarketBenchmark.Foundation.Channels
