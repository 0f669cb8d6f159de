import Mathlib

/-!
# Ordered maps

A map whose keys are kept in increasing order.  The order is a field of the
map, so a key occurs once, and removing an entry takes exactly its weight away.
-/

namespace MarketBenchmark.Foundation

/-- An association list in strictly increasing key order. -/
structure OrderedMap (Key Value : Type*) [LinearOrder Key] where
  entries : List (Key × Value)
  sorted : entries.Pairwise fun earlier later => earlier.1 < later.1

namespace OrderedMap

variable {Key Value : Type*} [LinearOrder Key]

def empty : OrderedMap Key Value where
  entries := []
  sorted := List.Pairwise.nil

instance : Membership (Key × Value) (OrderedMap Key Value) where
  mem map entry := entry ∈ map.entries

theorem mem_entries {map : OrderedMap Key Value} {entry : Key × Value} :
    entry ∈ map.entries ↔ entry ∈ map := Iff.rfl

@[simp]
theorem notMem_empty {entry : Key × Value} : entry ∉ (empty : OrderedMap Key Value) :=
  List.not_mem_nil

def HasKey (map : OrderedMap Key Value) (key : Key) : Prop := key ∈ map.entries.map Prod.fst

instance (map : OrderedMap Key Value) (key : Key) : Decidable (map.HasKey key) :=
  inferInstanceAs (Decidable (key ∈ map.entries.map Prod.fst))

theorem hasKey_iff {map : OrderedMap Key Value} {key : Key} :
    map.HasKey key ↔ ∃ value, (key, value) ∈ map := by
  unfold HasKey
  rw [List.mem_map]
  constructor
  · rintro ⟨⟨_, value⟩, member, rfl⟩
    exact ⟨value, member⟩
  · rintro ⟨value, member⟩
    exact ⟨(key, value), member, rfl⟩

theorem value_unique {map : OrderedMap Key Value} {key : Key} {first second : Value}
    (firstMember : (key, first) ∈ map) (secondMember : (key, second) ∈ map) : first = second := by
  have ordered := map.sorted
  rw [← mem_entries] at firstMember secondMember
  generalize map.entries = entries at ordered firstMember secondMember
  induction ordered with
  | nil => exact absurd firstMember List.not_mem_nil
  | cons above _ ih =>
      rcases List.mem_cons.mp firstMember with rfl | firstLater
      · rcases List.mem_cons.mp secondMember with same | secondLater
        · exact (Prod.mk.inj same).2.symm
        · exact absurd (above _ secondLater) (lt_irrefl key)
      · rcases List.mem_cons.mp secondMember with rfl | secondLater
        · exact absurd (above _ firstLater) (lt_irrefl key)
        · exact ih firstLater secondLater

/-- Insert the value unless the key has one. -/
def orInsert (map : OrderedMap Key Value) (key : Key) (value : Value) : OrderedMap Key Value :=
  if map.HasKey key then map
  else
    { entries := map.entries.filter (fun entry => entry.1 < key) ++
        (key, value) :: map.entries.filter (fun entry => key < entry.1)
      sorted := by
        refine List.pairwise_append.mpr ⟨map.sorted.filter _,
          List.pairwise_cons.mpr ⟨fun later member => ?_, map.sorted.filter _⟩,
          fun earlier before later member => ?_⟩
        · exact of_decide_eq_true (List.mem_filter.mp member).2
        · have below := of_decide_eq_true (List.mem_filter.mp before).2
          rcases List.mem_cons.mp member with rfl | after
          · exact below
          · exact below.trans (of_decide_eq_true (List.mem_filter.mp after).2) }

theorem orInsert_of_hasKey {map : OrderedMap Key Value} {key : Key} {value : Value}
    (present : map.HasKey key) : map.orInsert key value = map := if_pos present

theorem mem_orInsert_of_fresh {map : OrderedMap Key Value} {key : Key} {value : Value}
    (fresh : ¬map.HasKey key) {entry : Key × Value} :
    entry ∈ map.orInsert key value ↔ entry = (key, value) ∨ entry ∈ map := by
  unfold orInsert
  rw [if_neg fresh, ← mem_entries, List.mem_append, List.mem_cons, List.mem_filter,
    List.mem_filter, decide_eq_true_iff, decide_eq_true_iff]
  constructor
  · rintro (⟨member, _⟩ | same | ⟨member, _⟩)
    · exact Or.inr member
    · exact Or.inl same
    · exact Or.inr member
  · rintro (same | member)
    · exact Or.inr (Or.inl same)
    · rcases lt_trichotomy entry.1 key with below | same | above
      · exact Or.inl ⟨member, below⟩
      · exact absurd (hasKey_iff.mpr ⟨entry.2, same ▸ member⟩) fresh
      · exact Or.inr (Or.inr ⟨member, above⟩)

theorem mem_orInsert {map : OrderedMap Key Value} {key : Key} {value : Value}
    {entry : Key × Value} (member : entry ∈ map.orInsert key value) :
    entry = (key, value) ∨ entry ∈ map := by
  by_cases present : map.HasKey key
  · rw [orInsert_of_hasKey present] at member
    exact Or.inr member
  · exact (mem_orInsert_of_fresh present).mp member

def erase (map : OrderedMap Key Value) (key : Key) : OrderedMap Key Value where
  entries := map.entries.filter fun entry => entry.1 ≠ key
  sorted := map.sorted.filter _

theorem mem_erase {map : OrderedMap Key Value} {key : Key} {entry : Key × Value} :
    entry ∈ map.erase key ↔ entry ∈ map ∧ entry.1 ≠ key := by
  rw [← mem_entries, erase, List.mem_filter, decide_eq_true_iff]
  exact Iff.rfl

theorem length_erase_lt {map : OrderedMap Key Value} {key : Key} {value : Value}
    (member : (key, value) ∈ map) : (map.erase key).entries.length < map.entries.length := by
  refine List.length_filter_lt_length_iff_exists.mpr ⟨_, member, ?_⟩
  simp

/-- Insert the value in place of the one that the key may have. -/
def insert (map : OrderedMap Key Value) (key : Key) (value : Value) : OrderedMap Key Value :=
  (map.erase key).orInsert key value

theorem mem_insert {map : OrderedMap Key Value} {key : Key} {value : Value}
    {entry : Key × Value} :
    entry ∈ map.insert key value ↔ entry = (key, value) ∨ entry ∈ map ∧ entry.1 ≠ key := by
  have fresh : ¬(map.erase key).HasKey key := by
    intro present
    obtain ⟨old, member⟩ := hasKey_iff.mp present
    exact (mem_erase.mp member).2 rfl
  unfold insert
  rw [mem_orInsert_of_fresh fresh, mem_erase]

/-- The value of a key. -/
def get (map : OrderedMap Key Value) (key : Key) : Option Value :=
  (map.entries.find? fun entry => entry.1 = key).map Prod.snd

theorem get_eq_some {map : OrderedMap Key Value} {key : Key} {value : Value} :
    map.get key = some value ↔ (key, value) ∈ map := by
  unfold get
  rw [Option.map_eq_some_iff]
  constructor
  · rintro ⟨entry, found, rfl⟩
    have matched := List.find?_some found
    have same : entry.1 = key := of_decide_eq_true matched
    subst same
    exact List.mem_of_find?_eq_some found
  · intro member
    cases found : map.entries.find? fun entry => entry.1 = key with
    | none => exact absurd (decide_eq_true rfl) (List.find?_eq_none.mp found (key, value) member)
    | some entry =>
        have matched := List.find?_some found
        have same : entry.1 = key := of_decide_eq_true matched
        subst same
        exact ⟨entry, rfl, value_unique (List.mem_of_find?_eq_some found) member⟩

/-- Change every value, given its key. -/
def mapValues (change : Key → Value → Value) (map : OrderedMap Key Value) :
    OrderedMap Key Value where
  entries := map.entries.map fun entry => (entry.1, change entry.1 entry.2)
  sorted := List.pairwise_map.mpr map.sorted

theorem mem_mapValues {change : Key → Value → Value} {map : OrderedMap Key Value}
    {entry : Key × Value} :
    entry ∈ map.mapValues change ↔ ∃ old, (entry.1, old) ∈ map ∧ change entry.1 old = entry.2 := by
  rw [← mem_entries, mapValues, List.mem_map]
  constructor
  · rintro ⟨old, member, rfl⟩
    exact ⟨old.2, member, rfl⟩
  · rintro ⟨old, member, same⟩
    exact ⟨(entry.1, old), member, Prod.ext rfl same⟩

/-- A key occurs once. -/
theorem nodup_keys (map : OrderedMap Key Value) : (map.entries.map Prod.fst).Nodup :=
  List.pairwise_map.mpr (map.sorted.imp fun below => below.ne)

/-- The total weight of the values. -/
def total (weigh : Value → Nat) (map : OrderedMap Key Value) : Nat :=
  (map.entries.map fun entry => weigh entry.2).sum

variable {weigh : Value → Nat}

@[simp]
theorem total_empty : total weigh (empty : OrderedMap Key Value) = 0 := rfl

/-- Without the key itself, a weight splits into what lies below and above the key. -/
theorem sum_below_add_above {key : Key} {entries : List (Key × Value)}
    (apart : ∀ entry ∈ entries, entry.1 ≠ key) :
    (entries.map fun entry => weigh entry.2).sum =
      ((entries.filter fun entry => entry.1 < key).map fun entry => weigh entry.2).sum +
        ((entries.filter fun entry => key < entry.1).map fun entry => weigh entry.2).sum := by
  induction entries with
  | nil => rfl
  | cons entry rest ih =>
      have restParts := ih fun other member => apart other (List.mem_cons_of_mem entry member)
      rcases lt_or_gt_of_ne (apart entry List.mem_cons_self) with below | above
      · simp only [List.filter_cons, below, not_lt_of_gt below, decide_true, decide_false, if_true,
          Bool.false_eq_true, if_false, List.map_cons, List.sum_cons]
        omega
      · simp only [List.filter_cons, above, not_lt_of_gt above, decide_true, decide_false, if_true,
          Bool.false_eq_true, if_false, List.map_cons, List.sum_cons]
        omega

theorem total_orInsert_of_fresh {map : OrderedMap Key Value} {key : Key} {value : Value}
    (fresh : ¬map.HasKey key) :
    total weigh (map.orInsert key value) = total weigh map + weigh value := by
  have apart : ∀ entry ∈ map.entries, entry.1 ≠ key :=
    fun entry member same => fresh (hasKey_iff.mpr ⟨entry.2, same ▸ member⟩)
  unfold orInsert total
  rw [if_neg fresh, sum_below_add_above apart]
  simp only [List.map_append, List.map_cons, List.sum_append, List.sum_cons]
  omega

theorem total_orInsert_le {map : OrderedMap Key Value} {key : Key} {value : Value} :
    total weigh (map.orInsert key value) ≤ total weigh map + weigh value := by
  by_cases present : map.HasKey key
  · rw [orInsert_of_hasKey present]
    exact Nat.le_add_right _ _
  · exact Nat.le_of_eq (total_orInsert_of_fresh present)

/-- Erasing an entry takes its weight away. -/
theorem total_erase {map : OrderedMap Key Value} {key : Key} {value : Value}
    (member : (key, value) ∈ map) :
    total weigh map = weigh value + total weigh (map.erase key) := by
  have ordered := map.sorted
  rw [← mem_entries] at member
  unfold total erase
  dsimp only
  generalize map.entries = entries at ordered member
  induction ordered with
  | nil => exact absurd member List.not_mem_nil
  | @cons head rest above _ ih =>
      rcases List.mem_cons.mp member with rfl | later
      · have others : rest.filter (fun entry => entry.1 ≠ key) = rest :=
          List.filter_eq_self.mpr fun entry within => decide_eq_true (above entry within).ne'
        rw [List.filter_cons_of_neg (by simp), others]
        rfl
      · have kept : (head :: rest).filter (fun entry => entry.1 ≠ key) =
            head :: rest.filter fun entry => entry.1 ≠ key :=
          List.filter_cons_of_pos (decide_eq_true (above _ later).ne)
        rw [kept, List.map_cons, List.map_cons, List.sum_cons, List.sum_cons, ih later]
        omega

end OrderedMap

end MarketBenchmark.Foundation
