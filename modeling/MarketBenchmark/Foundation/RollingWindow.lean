import MarketBenchmark.Foundation.TimedRing

/-!
# The rolling window of a log

A log is a list of stamped entries in the order in which they were written.  A
capped ring takes them one by one and drops its oldest entry past the cap; from
time to time the entries below a cut expire.  A ring whose cuts do not go back
holds, after each expiry, the newest entries of the whole log, as if it had
been sorted and cut once at the end.
-/

namespace MarketBenchmark.Foundation.TimedRing

variable {Entry : Type*} {stamp : Entry → Nat}

/-! ## The log in stamp order -/

/-- The comparison of stamps. -/
def stampLe (stamp : Entry → Nat) (earlier later : Entry) : Bool :=
  decide (stamp earlier ≤ stamp later)

theorem stampLe_trans (stamp : Entry → Nat) (first second third : Entry)
    (left : stampLe stamp first second = true) (right : stampLe stamp second third = true) :
    stampLe stamp first third = true :=
  decide_eq_true (Nat.le_trans (of_decide_eq_true left) (of_decide_eq_true right))

theorem stampLe_total (stamp : Entry → Nat) (first second : Entry) :
    (stampLe stamp first second || stampLe stamp second first) = true := by
  refine Bool.or_eq_true_iff.mpr ?_
  exact (Nat.le_total (stamp first) (stamp second)).imp decide_eq_true decide_eq_true

/-- The entries in stamp order; entries with equal stamps keep the order of the log. -/
def inOrder (stamp : Entry → Nat) (log : List Entry) : List Entry :=
  log.mergeSort (stampLe stamp)

theorem inOrder_perm (stamp : Entry → Nat) (log : List Entry) :
    (inOrder stamp log).Perm log :=
  List.mergeSort_perm log _

theorem ordered_inOrder (stamp : Entry → Nat) (log : List Entry) :
    Ordered stamp (inOrder stamp log) :=
  (List.pairwise_mergeSort (stampLe_trans stamp) (stampLe_total stamp) log).imp
    fun le => of_decide_eq_true le

/-- The entry carries this stamp. -/
def stampedAt (stamp : Entry → Nat) (instant : Nat) (entry : Entry) : Bool :=
  decide (stamp entry = instant)

/-- The entries of one instant stand in the order of the log. -/
theorem filter_stampedAt_inOrder (log : List Entry) (instant : Nat) :
    (inOrder stamp log).filter (stampedAt stamp instant) =
      log.filter (stampedAt stamp instant) := by
  have level : (log.filter (stampedAt stamp instant)).Pairwise fun earlier later =>
      stampLe stamp earlier later = true := by
    refine List.pairwise_of_forall_mem_list fun first firstMember second secondMember => ?_
    have firstAt := of_decide_eq_true (List.mem_filter.mp firstMember).2
    have secondAt := of_decide_eq_true (List.mem_filter.mp secondMember).2
    exact decide_eq_true (Nat.le_of_eq (firstAt.trans secondAt.symm))
  have within : (log.filter (stampedAt stamp instant)).Sublist (inOrder stamp log) :=
    List.sublist_mergeSort (stampLe_trans stamp) (stampLe_total stamp) level
      List.filter_sublist
  have kept := within.filter (stampedAt stamp instant)
  rw [List.filter_eq_self.mpr fun _ member => (List.mem_filter.mp member).2] at kept
  exact (kept.eq_of_length ((inOrder_perm stamp log).filter _).length_eq.symm).symm

/-- Two lists agree when they have the same entries at every instant, in the same order. -/
def Agree (stamp : Entry → Nat) (first second : List Entry) : Prop :=
  ∀ instant, first.filter (stampedAt stamp instant) = second.filter (stampedAt stamp instant)

theorem Agree.mem {first second : List Entry} (agree : Agree stamp first second) {entry : Entry}
    (member : entry ∈ first) : entry ∈ second := by
  have kept : entry ∈ first.filter (stampedAt stamp (stamp entry)) :=
    List.mem_filter.mpr ⟨member, decide_eq_true rfl⟩
  rw [agree] at kept
  exact (List.mem_filter.mp kept).1

theorem Agree.symm {first second : List Entry} (agree : Agree stamp first second) :
    Agree stamp second first :=
  fun instant => (agree instant).symm

/-- The head of a list in stamp order has the smallest stamp of an agreeing list. -/
theorem Agree.head_le {head other : Entry} {rest others : List Entry}
    (agree : Agree stamp (head :: rest) (other :: others))
    (ordered : Ordered stamp (head :: rest)) : stamp head ≤ stamp other := by
  rcases List.mem_cons.mp (agree.symm.mem List.mem_cons_self) with same | later
  · exact Nat.le_of_eq (congrArg stamp same.symm)
  · exact (List.pairwise_cons.mp ordered).1 other later

/-- Two agreeing lists in stamp order are equal. -/
theorem Agree.eq {first second : List Entry} (agree : Agree stamp first second)
    (firstOrdered : Ordered stamp first) (secondOrdered : Ordered stamp second) :
    first = second := by
  induction first generalizing second with
  | nil =>
      cases second with
      | nil => rfl
      | cons head rest => exact absurd (agree.symm.mem List.mem_cons_self) List.not_mem_nil
  | cons head rest ih =>
      cases second with
      | nil => exact absurd (agree.mem List.mem_cons_self) List.not_mem_nil
      | cons other others =>
          have sameStamp : stamp head = stamp other :=
            Nat.le_antisymm (agree.head_le firstOrdered) (agree.symm.head_le secondOrdered)
          have headAt : stampedAt stamp (stamp head) head = true := decide_eq_true rfl
          have otherAt : stampedAt stamp (stamp head) other = true :=
            decide_eq_true sameStamp.symm
          have sameHead : head = other := by
            have here := agree (stamp head)
            rw [List.filter_cons_of_pos headAt, List.filter_cons_of_pos otherAt] at here
            exact (List.cons.inj here).1
          subst sameHead
          refine congrArg (head :: ·) (ih (fun instant => ?_) firstOrdered.tail
            secondOrdered.tail)
          have here := agree instant
          rw [List.filter_cons, List.filter_cons] at here
          split at here
          · exact (List.cons.inj here).2
          · exact here

/-- Filtering the sorted log is sorting the filtered log. -/
theorem filter_inOrder (test : Entry → Bool) (log : List Entry) :
    (inOrder stamp log).filter test = inOrder stamp (log.filter test) := by
  have agree : Agree stamp ((inOrder stamp log).filter test) (inOrder stamp (log.filter test)) := by
    intro instant
    rw [filter_stampedAt_inOrder, List.filter_filter, List.filter_filter]
    have commute : ∀ list : List Entry,
        list.filter (fun entry => stampedAt stamp instant entry && test entry) =
          (list.filter (stampedAt stamp instant)).filter test := by
      intro list
      rw [List.filter_filter]
      exact List.filter_congr fun entry _ => Bool.and_comm _ _
    rw [commute, commute, filter_stampedAt_inOrder]
  exact agree.eq ((ordered_inOrder stamp log).filter test) (ordered_inOrder stamp _)

/-! ## Insertion -/

/-- An entry that is not earlier than any other goes to the back. -/
theorem insertInOrder_of_le {ring : List Entry} {entry : Entry}
    (last : ∀ other ∈ ring, stamp other ≤ stamp entry) :
    insertInOrder stamp ring entry = ring ++ [entry] := by
  induction ring with
  | nil => rfl
  | cons first rest ih =>
      rw [insertInOrder_cons, if_neg (Nat.not_lt.mpr (last first List.mem_cons_self)),
        ih fun other member => last other (List.mem_cons_of_mem first member)]
      rfl

/-- An entry that is earlier than all others goes to the front. -/
theorem insertInOrder_of_lt {ring : List Entry} {entry : Entry}
    (first : ∀ other ∈ ring, stamp entry < stamp other) :
    insertInOrder stamp ring entry = entry :: ring := by
  cases ring with
  | nil => rfl
  | cons head rest => rw [insertInOrder_cons, if_pos (first head List.mem_cons_self)]

/-- Filtering a ring commutes with insertion. -/
theorem filter_insertInOrder {ring : List Entry} (ordered : Ordered stamp ring)
    (test : Entry → Bool) (entry : Entry) :
    (insertInOrder stamp ring entry).filter test =
      if test entry then insertInOrder stamp (ring.filter test) entry else ring.filter test := by
  induction ring with
  | nil => exact List.filter_cons
  | cons first rest ih =>
      obtain ⟨firstLe, restOrdered⟩ := List.pairwise_cons.mp ordered
      rw [insertInOrder_cons]
      by_cases earlier : stamp entry < stamp first
      · have front : insertInOrder stamp ((first :: rest).filter test) entry =
            entry :: (first :: rest).filter test := by
          refine insertInOrder_of_lt fun other member => ?_
          rcases List.mem_cons.mp (List.mem_filter.mp member).1 with same | later
          · rw [same]
            exact earlier
          · exact Nat.lt_of_lt_of_le earlier (firstLe other later)
        rw [if_pos earlier, List.filter_cons, front]
      · rw [if_neg earlier, List.filter_cons, ih restOrdered, List.filter_cons]
        cases test first with
        | false => rfl
        | true =>
            rw [if_pos rfl, if_pos rfl, insertInOrder_cons, if_neg earlier]
            exact (apply_ite (first :: ·) _ _ _)

/-- Sorting a longer log inserts its last entry. -/
theorem inOrder_concat (log : List Entry) (entry : Entry) :
    inOrder stamp (log ++ [entry]) = insertInOrder stamp (inOrder stamp log) entry := by
  have agree : Agree stamp (inOrder stamp (log ++ [entry]))
      (insertInOrder stamp (inOrder stamp log) entry) := by
    intro instant
    rw [filter_stampedAt_inOrder, filter_insertInOrder (ordered_inOrder stamp log),
      filter_stampedAt_inOrder, List.filter_append, List.filter_singleton]
    cases here : stampedAt stamp instant entry with
    | false => exact List.append_nil _
    | true =>
        refine (insertInOrder_of_le fun other member => ?_).symm
        rw [of_decide_eq_true (List.mem_filter.mp member).2, of_decide_eq_true here]
  exact agree.eq (ordered_inOrder stamp _) ((ordered_inOrder stamp log).insertInOrder entry)

/-! ## The newest entries -/

theorem rtake_of_length_le {cap : Nat} {ring : List Entry} (short : ring.length ≤ cap) :
    ring.rtake cap = ring := by
  unfold List.rtake
  rw [Nat.sub_eq_zero_of_le short, List.drop_zero]

theorem rtake_cons {cap : Nat} {ring : List Entry} (long : cap ≤ ring.length) (first : Entry) :
    (first :: ring).rtake cap = ring.rtake cap := by
  unfold List.rtake
  rw [List.length_cons, Nat.succ_sub long, List.drop_succ_cons]

/-- The newest entries of a ring with one more entry are those of the newest entries. -/
theorem rtake_insertInOrder {ring : List Entry} (ordered : Ordered stamp ring) (cap : Nat)
    (entry : Entry) :
    (insertInOrder stamp ring entry).rtake cap = insertCapped stamp cap (ring.rtake cap) entry := by
  have whole : ∀ short : List Entry, short.length ≤ cap →
      (insertInOrder stamp short entry).rtake cap =
        insertCapped stamp cap (short.rtake cap) entry := by
    intro short fits
    rw [rtake_of_length_le fits, insertCapped]
    by_cases overflowing : cap < (insertInOrder stamp short entry).length
    · rw [if_pos overflowing]
      rw [length_insertInOrder] at overflowing
      unfold List.rtake
      rw [length_insertInOrder, Nat.le_antisymm fits (Nat.le_of_lt_succ overflowing),
        Nat.add_sub_cancel_left, List.drop_one]
    · rw [if_neg overflowing]
      exact rtake_of_length_le (Nat.le_of_not_lt overflowing)
  induction ring with
  | nil => exact whole [] (Nat.zero_le cap)
  | cons first rest ih =>
      obtain ⟨firstLe, restOrdered⟩ := List.pairwise_cons.mp ordered
      by_cases long : cap ≤ rest.length
      · rw [rtake_cons long, ← ih restOrdered, insertInOrder_cons]
        by_cases earlier : stamp entry < stamp first
        · rw [if_pos earlier, rtake_cons (Nat.le_succ_of_le long), rtake_cons long,
            insertInOrder_of_lt fun other member =>
              Nat.lt_of_lt_of_le earlier (firstLe other member), rtake_cons long]
        · rw [if_neg earlier, rtake_cons]
          rw [length_insertInOrder]
          exact Nat.le_succ_of_le long
      · exact whole (first :: rest) (Nat.lt_of_not_le long)

/-- The last of the newest entries has the latest stamp. -/
theorem stamp_le_getLast?_rtake {ring : List Entry} (ordered : Ordered stamp ring) {cap : Nat}
    {latest : Entry} (isLast : (ring.rtake cap).getLast? = some latest) :
    ∀ entry ∈ ring, stamp entry ≤ stamp latest := by
  intro entry member
  unfold List.rtake at isLast
  rw [List.getLast?_drop] at isLast
  split at isLast
  · cases isLast
  · obtain ⟨front, split⟩ := List.getLast?_eq_some_iff.mp isLast
    subst split
    rcases List.mem_append.mp member with earlier | same
    · exact (List.pairwise_append.mp ordered).2.2 entry earlier latest List.mem_cons_self
    · rw [List.mem_singleton.mp same]

/-- The stamp is not below the cut. -/
def recent (stamp : Entry → Nat) (cut : Nat) (entry : Entry) : Bool :=
  decide (cut ≤ stamp entry)

/-- Of the newest entries, those that are not below a cut are the newest of these. -/
theorem filter_rtake {ring : List Entry} (ordered : Ordered stamp ring) (cap cut : Nat) :
    (ring.rtake cap).filter (recent stamp cut) = (ring.filter (recent stamp cut)).rtake cap := by
  induction ring with
  | nil => rw [List.filter_nil, List.rtake_nil, List.filter_nil]
  | cons first rest ih =>
      obtain ⟨firstLe, restOrdered⟩ := List.pairwise_cons.mp ordered
      by_cases long : cap ≤ rest.length
      · rw [rtake_cons long, ih restOrdered, List.filter_cons]
        cases kept : recent stamp cut first with
        | false => rfl
        | true =>
            have all : rest.filter (recent stamp cut) = rest :=
              List.filter_eq_self.mpr fun other member => decide_eq_true
                (Nat.le_trans (of_decide_eq_true kept) (firstLe other member))
            rw [if_pos rfl, all, rtake_cons long]
      · have short : (first :: rest).length ≤ cap := Nat.lt_of_not_le long
        rw [rtake_of_length_le short, rtake_of_length_le
          (Nat.le_trans (List.length_filter_le _ _) short)]

/-! ## The capped ring -/

/-- A ring with a count of the entries that the cap has pushed out. -/
structure CappedRing (Entry : Type*) where
  entries : List Entry
  evictions : Nat

namespace CappedRing

def insert (stamp : Entry → Nat) (cap : Nat) (ring : CappedRing Entry) (entry : Entry) :
    CappedRing Entry where
  entries := insertCapped stamp cap ring.entries entry
  evictions := ring.evictions +
    if cap < (insertInOrder stamp ring.entries entry).length then 1 else 0

/-- Drop the entries below the cut. -/
def expire (stamp : Entry → Nat) (cut : Nat) (ring : CappedRing Entry) : CappedRing Entry where
  entries := ring.entries.filter (recent stamp cut)
  evictions := ring.evictions

end CappedRing

/--
The ring follows the log: it is the newest part of a ring without a cap, which agrees with the
log from the cut on.
-/
structure Follows (stamp : Entry → Nat) (cap cut : Nat) (log : List Entry)
    (ring : CappedRing Entry) (uncapped : List Entry) : Prop where
  ordered : Ordered stamp uncapped
  newest : ring.entries = uncapped.rtake cap
  unevicted : ring.evictions = 0 → ring.entries = uncapped
  recent : uncapped.filter (recent stamp cut) = inOrder stamp (log.filter (recent stamp cut))

namespace Follows

variable {cap cut later : Nat} {log uncapped : List Entry} {ring : CappedRing Entry}

theorem nil (stamp : Entry → Nat) (cap cut : Nat) :
    Follows stamp cap cut [] ⟨[], 0⟩ [] where
  ordered := List.Pairwise.nil
  newest := (List.rtake_nil cap).symm
  unevicted _ := rfl
  recent := List.mergeSort_nil.symm

/-- The cut may be raised at any time. -/
theorem raise (follows : Follows stamp cap cut log ring uncapped) (le : cut ≤ later) :
    Follows stamp cap later log ring uncapped where
  ordered := follows.ordered
  newest := follows.newest
  unevicted := follows.unevicted
  recent := by
    have within : ∀ list : List Entry, (list.filter (TimedRing.recent stamp cut)).filter
        (TimedRing.recent stamp later) = list.filter (TimedRing.recent stamp later) := by
      intro list
      rw [List.filter_filter]
      refine List.filter_congr fun entry _ => ?_
      unfold TimedRing.recent
      by_cases kept : later ≤ stamp entry
      · rw [decide_eq_true kept, decide_eq_true (Nat.le_trans le kept), Bool.and_true]
      · rw [decide_eq_false kept, Bool.false_and]
    rw [← within, follows.recent, filter_inOrder, within]

theorem insert (follows : Follows stamp cap cut log ring uncapped) (entry : Entry) :
    Follows stamp cap cut (log ++ [entry]) (ring.insert stamp cap entry)
      (insertInOrder stamp uncapped entry) where
  ordered := follows.ordered.insertInOrder entry
  newest := by
    rw [rtake_insertInOrder follows.ordered, ← follows.newest]
    rfl
  unevicted none := by
    obtain ⟨before, fits⟩ := Nat.add_eq_zero_iff.mp none
    have whole := follows.unevicted before
    have roomy : ¬cap < (insertInOrder stamp ring.entries entry).length :=
      fun overflowing => absurd ((if_pos overflowing).symm.trans fits) Nat.one_ne_zero
    show insertCapped stamp cap ring.entries entry = _
    rw [insertCapped, if_neg roomy, whole]
  recent := by
    rw [filter_insertInOrder follows.ordered, follows.recent, List.filter_append,
      List.filter_singleton]
    cases TimedRing.recent stamp cut entry with
    | false => exact congrArg (inOrder stamp) (List.append_nil _).symm
    | true => exact (inOrder_concat _ entry).symm

theorem expire (follows : Follows stamp cap cut log ring uncapped) :
    Follows stamp cap cut log (ring.expire stamp cut)
      (uncapped.filter (TimedRing.recent stamp cut)) where
  ordered := follows.ordered.filter _
  newest := by
    rw [← filter_rtake follows.ordered, ← follows.newest]
    rfl
  unevicted none := congrArg (List.filter _) (follows.unevicted none)
  recent := by
    rw [List.filter_eq_self.mpr fun _ member => (List.mem_filter.mp member).2, follows.recent]

/-- After an expiry the ring is the newest part of the log from the cut on. -/
theorem entries_expire (follows : Follows stamp cap cut log ring uncapped) :
    (ring.expire stamp cut).entries =
        (inOrder stamp (log.filter (TimedRing.recent stamp cut))).rtake cap ∧
      (ring.evictions = 0 → (ring.expire stamp cut).entries =
        inOrder stamp (log.filter (TimedRing.recent stamp cut))) := by
  have expired := follows.expire
  rw [follows.recent] at expired
  exact ⟨expired.newest, expired.unevicted⟩

end Follows

end MarketBenchmark.Foundation.TimedRing
