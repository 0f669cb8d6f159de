import Mathlib

/-!
# Rings kept in stamp order

A ring is a list of stamped entries, oldest first.  A new entry goes in front
of the first entry with a later stamp, so entries with equal stamps keep their
insertion order, whatever the order in which stamps are processed.
-/

namespace MarketBenchmark.Foundation.TimedRing

variable {Entry : Type*}

/-- Stamps do not decrease along the ring. -/
def Ordered (stamp : Entry → Nat) (ring : List Entry) : Prop :=
  ring.Pairwise fun earlier later => stamp earlier ≤ stamp later

/-- Insert in front of the first entry with a later stamp. -/
def insertInOrder (stamp : Entry → Nat) (ring : List Entry) (entry : Entry) : List Entry :=
  ring.insertIdx (ring.findIdx fun other => decide (stamp entry < stamp other)) entry

variable {stamp : Entry → Nat} {ring : List Entry} {entry : Entry}

theorem insertInOrder_perm (stamp : Entry → Nat) (ring : List Entry) (entry : Entry) :
    (insertInOrder stamp ring entry).Perm (entry :: ring) :=
  List.perm_insertIdx entry ring List.findIdx_le_length

@[simp]
theorem mem_insertInOrder {other : Entry} :
    other ∈ insertInOrder stamp ring entry ↔ other = entry ∨ other ∈ ring := by
  rw [(insertInOrder_perm stamp ring entry).mem_iff, List.mem_cons]

@[simp]
theorem length_insertInOrder :
    (insertInOrder stamp ring entry).length = ring.length + 1 := by
  rw [(insertInOrder_perm stamp ring entry).length_eq, List.length_cons]

@[simp]
theorem insertInOrder_nil (stamp : Entry → Nat) (entry : Entry) :
    insertInOrder stamp [] entry = [entry] := rfl

theorem insertInOrder_cons (stamp : Entry → Nat) (first : Entry) (rest : List Entry)
    (entry : Entry) :
    insertInOrder stamp (first :: rest) entry =
      if stamp entry < stamp first then entry :: first :: rest
      else first :: insertInOrder stamp rest entry := by
  unfold insertInOrder
  rw [List.findIdx_cons]
  by_cases later : stamp entry < stamp first
  · simp [later]
  · simp [later]

/-- Insertion keeps the ring in stamp order. -/
theorem Ordered.insertInOrder (ordered : Ordered stamp ring) (entry : Entry) :
    Ordered stamp (insertInOrder stamp ring entry) := by
  induction ring with
  | nil => exact List.pairwise_singleton _ entry
  | cons first rest ih =>
      obtain ⟨firstLe, restOrdered⟩ := List.pairwise_cons.mp ordered
      rw [insertInOrder_cons]
      by_cases later : stamp entry < stamp first
      · rw [if_pos later]
        refine List.pairwise_cons.mpr ⟨?_, ordered⟩
        intro other member
        rcases List.mem_cons.mp member with same | inRest
        · rw [same]
          exact Nat.le_of_lt later
        · exact Nat.le_trans (Nat.le_of_lt later) (firstLe other inRest)
      · rw [if_neg later]
        refine List.pairwise_cons.mpr ⟨?_, ih restOrdered⟩
        intro other member
        rcases mem_insertInOrder.mp member with same | inRest
        · rw [same]
          exact Nat.le_of_not_lt later
        · exact firstLe other inRest

/-- Insert, and drop the oldest entry of a ring that outgrows its cap. -/
def insertCapped (stamp : Entry → Nat) (cap : Nat) (ring : List Entry) (entry : Entry) :
    List Entry :=
  if cap < (insertInOrder stamp ring entry).length then (insertInOrder stamp ring entry).tail
  else insertInOrder stamp ring entry

/-- The entry that a ring drops when it outgrows its cap. -/
def overflow (stamp : Entry → Nat) (cap : Nat) (ring : List Entry) (entry : Entry) :
    Option Entry :=
  if cap < (insertInOrder stamp ring entry).length then (insertInOrder stamp ring entry).head?
  else none

/-- What a capped insertion keeps and what it drops are the ring and the new entry. -/
theorem insertCapped_append_overflow (stamp : Entry → Nat) (cap : Nat) (ring : List Entry)
    (entry : Entry) :
    (insertCapped stamp cap ring entry ++ (overflow stamp cap ring entry).toList).Perm
      (entry :: ring) := by
  refine List.Perm.trans ?_ (insertInOrder_perm stamp ring entry)
  unfold insertCapped overflow
  split
  · cases insertInOrder stamp ring entry with
    | nil => exact List.Perm.refl _
    | cons first rest => exact List.perm_append_singleton first rest
  · rw [Option.toList_none, List.append_nil]

/-- A ring grows up to its cap, and drops an entry for each one after that. -/
theorem length_insertCapped (stamp : Entry → Nat) (cap : Nat) (ring : List Entry)
    (entry : Entry) :
    (insertCapped stamp cap ring entry).length =
      if cap ≤ ring.length then ring.length else ring.length + 1 := by
  unfold insertCapped
  rw [length_insertInOrder]
  by_cases full : cap ≤ ring.length
  · rw [if_pos full, if_pos (Nat.lt_succ_of_le full), List.length_tail, length_insertInOrder]
    rfl
  · rw [if_neg full, if_neg fun past => full (Nat.le_of_lt_succ past), length_insertInOrder]

/-- What a ring drops, told as one and the same thing about every entry. -/
theorem map_overflow_const {Other : Type*} (stamp : Entry → Nat) (cap : Nat)
    (ring : List Entry) (entry : Entry) (told : Other) :
    ((overflow stamp cap ring entry).toList.map fun _ => told) =
      if cap ≤ ring.length then [told] else [] := by
  unfold overflow
  rw [length_insertInOrder]
  by_cases full : cap ≤ ring.length
  · rw [if_pos full, if_pos (Nat.lt_succ_of_le full)]
    cases inserted : insertInOrder stamp ring entry with
    | nil =>
        have length : (insertInOrder stamp ring entry).length = ring.length + 1 :=
          length_insertInOrder
        rw [inserted] at length
        cases length
    | cons first rest => rfl
  · rw [if_neg full, if_neg fun past => full (Nat.le_of_lt_succ past)]
    rfl

theorem length_insertCapped_le_cap {cap : Nat} (short : ring.length ≤ cap) (entry : Entry) :
    (insertCapped stamp cap ring entry).length ≤ cap := by
  unfold insertCapped
  split
  · rw [List.length_tail, length_insertInOrder]
    exact short
  · next notOver => exact Nat.le_of_not_lt notOver

theorem insertCapped_sublist (stamp : Entry → Nat) (cap : Nat) (ring : List Entry)
    (entry : Entry) :
    (insertCapped stamp cap ring entry).Sublist (insertInOrder stamp ring entry) := by
  unfold insertCapped
  split
  · exact List.tail_sublist _
  · exact List.Sublist.refl _

theorem mem_of_mem_insertCapped {cap : Nat} {other : Entry}
    (member : other ∈ insertCapped stamp cap ring entry) : other = entry ∨ other ∈ ring :=
  mem_insertInOrder.mp ((insertCapped_sublist stamp cap ring entry).subset member)

/-- Relabelling the entries without touching their stamps commutes with insertion. -/
theorem map_insertInOrder {Other : Type*} {otherStamp : Other → Nat}
    (relabel : Entry → Other) (keeps : ∀ entry, otherStamp (relabel entry) = stamp entry)
    (ring : List Entry) (entry : Entry) :
    (insertInOrder stamp ring entry).map relabel =
      insertInOrder otherStamp (ring.map relabel) (relabel entry) := by
  induction ring with
  | nil => rfl
  | cons first rest ih =>
      rw [List.map_cons, insertInOrder_cons, insertInOrder_cons, keeps, keeps]
      by_cases later : stamp entry < stamp first
      · rw [if_pos later, if_pos later, List.map_cons, List.map_cons]
      · rw [if_neg later, if_neg later, List.map_cons, ih]

theorem map_insertCapped {Other : Type*} {otherStamp : Other → Nat}
    (relabel : Entry → Other) (keeps : ∀ entry, otherStamp (relabel entry) = stamp entry)
    (cap : Nat) (ring : List Entry) (entry : Entry) :
    (insertCapped stamp cap ring entry).map relabel =
      insertCapped otherStamp cap (ring.map relabel) (relabel entry) := by
  unfold insertCapped
  rw [← map_insertInOrder relabel keeps, List.length_map, ← List.map_tail]
  exact apply_ite _ _ _ _

/-- A ring with room for the entries of all the items drops none. -/
theorem foldl_insertCapped_perm {Item : Type*} {cap : Nat} (stamp : Entry → Nat)
    (entryOf : Item → Entry) (items : List Item) (room : items.length + ring.length ≤ cap) :
    (items.foldl (fun ring item => insertCapped stamp cap ring (entryOf item)) ring).Perm
      (items.map entryOf ++ ring) := by
  induction items generalizing ring with
  | nil => exact List.Perm.refl ring
  | cons item rest ih =>
      rw [List.length_cons] at room
      have kept : insertCapped stamp cap ring (entryOf item) =
          insertInOrder stamp ring (entryOf item) := by
        refine if_neg ?_
        rw [length_insertInOrder]
        omega
      rw [List.foldl_cons, kept]
      refine (ih (by rw [length_insertInOrder]; omega)).trans ?_
      exact ((insertInOrder_perm stamp ring (entryOf item)).append_left _).trans List.perm_middle

end MarketBenchmark.Foundation.TimedRing
