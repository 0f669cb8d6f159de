import Mathlib

/-!
# Hash maps with unspecified iteration order

A hash map is an association list with distinct keys.  The order in which a
program sees the entries is not part of the map: every iteration goes through
an `IterationOrder`, an arbitrary rearrangement of the entries.  Results that
hold for every iteration order hold for every hasher.
-/

namespace MarketBenchmark.Foundation.HashMaps

/-- The live entries of a hash map, with distinct keys. -/
abbrev HashMap (Key Value : Type) : Type := AList fun _ : Key => Value

/-- The order in which a hasher happens to visit entries. -/
structure IterationOrder where
  arrange : {Entry : Type} → List Entry → List Entry
  perm : ∀ {Entry : Type} (entries : List Entry), (arrange entries).Perm entries

namespace IterationOrder

/-- Visit the entries as they are stored. -/
def stored : IterationOrder where
  arrange := fun entries => entries
  perm := fun entries => List.Perm.refl entries

@[simp]
theorem mem_arrange (order : IterationOrder) {Entry : Type} {entry : Entry}
    {entries : List Entry} : entry ∈ order.arrange entries ↔ entry ∈ entries :=
  (order.perm entries).mem_iff

end IterationOrder

variable {Key Value : Type} [DecidableEq Key]

namespace HashMap

/-! ## Entries and lookups -/

theorem mem_entries_iff {map : HashMap Key Value} {key : Key} {value : Value} :
    (⟨key, value⟩ : Sigma fun _ : Key => Value) ∈ map.entries ↔
      map.lookup key = some value :=
  AList.mem_lookup_iff.symm

theorem mem_of_lookup {map : HashMap Key Value} {key : Key} {value : Value}
    (found : map.lookup key = some value) : key ∈ map :=
  AList.lookup_isSome.mp (by rw [found]; rfl)

theorem exists_lookup_of_mem {map : HashMap Key Value} {key : Key}
    (present : key ∈ map) : ∃ value, map.lookup key = some value :=
  Option.isSome_iff_exists.mp (AList.lookup_isSome.mpr present)

/-- What holds of the inserted key and of all others. -/
theorem forall_mem_insert {map : HashMap Key Value} {Holds : Key → Prop} {key : Key}
    {value : Value} (own : Holds key) (others : ∀ other ∈ map, Holds other) :
    ∀ other ∈ map.insert key value, Holds other := by
  intro other member
  rcases (AList.mem_insert _).mp member with same | old
  · rw [same]
    exact own
  · exact others other old

theorem forall_mem_erase {map : HashMap Key Value} {Holds : Key → Prop}
    (all : ∀ key ∈ map, Holds key) (erased : Key) : ∀ key ∈ map.erase erased, Holds key :=
  fun key member => all key (AList.mem_erase.mp member).2

theorem lookup_erase_eq_some {map : HashMap Key Value} {key erased : Key} {value : Value} :
    (map.erase erased).lookup key = some value ↔
      key ≠ erased ∧ map.lookup key = some value := by
  by_cases same : key = erased
  · subst same
    rw [AList.lookup_erase]
    simp
  · rw [AList.lookup_erase_ne same]
    simp [same]

theorem lookup_insert_eq_some {map : HashMap Key Value} {key inserted : Key}
    {value new : Value} :
    (map.insert inserted new).lookup key = some value ↔
      (key = inserted ∧ new = value) ∨ (key ≠ inserted ∧ map.lookup key = some value) := by
  by_cases same : key = inserted
  · subst same
    rw [AList.lookup_insert]
    simp
  · rw [AList.lookup_insert_ne same]
    simp [same]

/-- A present entry can be moved to the front of the remaining ones. -/
theorem entries_perm_erase {map : HashMap Key Value} {key : Key} {value : Value}
    (found : map.lookup key = some value) :
    map.entries.Perm (⟨key, value⟩ :: (map.erase key).entries) := by
  obtain ⟨stored, front, back, notFront, entriesEq, erasedEq⟩ :=
    List.exists_of_kerase (mem_of_lookup found : key ∈ map.entries.keys)
  have storedEq : stored = value := by
    have member : (⟨key, stored⟩ : Sigma fun _ : Key => Value) ∈ map.entries := by
      rw [entriesEq]
      exact List.mem_append_right front List.mem_cons_self
    exact Option.some.inj ((mem_entries_iff.mp member).symm.trans found)
  subst storedEq
  change map.entries.Perm (⟨key, stored⟩ :: map.entries.kerase key)
  rw [erasedEq, entriesEq]
  exact List.perm_middle

/-- Maps that agree on every key have the same entries. -/
theorem entries_perm_of_lookup {map other : HashMap Key Value}
    (same : ∀ key, map.lookup key = other.lookup key) : map.entries.Perm other.entries := by
  refine List.lookup_ext map.nodupKeys other.nodupKeys fun key value => ?_
  rw [show map.entries.dlookup key = other.entries.dlookup key from same key]

/-- What vanishes on every other key sums up to its value on the one key. -/
theorem sum_entries_of_key {Total : Type} [AddCommMonoid Total] {map : HashMap Key Value}
    {key : Key} {value : Value} (found : map.lookup key = some value)
    (measure : Key → Value → Total)
    (vanishes : ∀ other held, map.lookup other = some held → other ≠ key →
      measure other held = 0) :
    (map.entries.map fun entry => measure entry.1 entry.2).sum = measure key value := by
  have others : ((map.erase key).entries.map fun entry => measure entry.1 entry.2).sum = 0 := by
    refine List.sum_eq_zero fun total member => ?_
    obtain ⟨⟨other, held⟩, entry, rfl⟩ := List.mem_map.mp member
    obtain ⟨different, before⟩ := lookup_erase_eq_some.mp (mem_entries_iff.mp entry)
    exact vanishes other held before different
  rw [((entries_perm_erase found).map _).sum_eq, List.map_cons, List.sum_cons, others, add_zero]

/-- The entries of one key are its own. -/
theorem filter_entries_of_key {map : HashMap Key Value} {key : Key} {value : Value}
    (found : map.lookup key = some value) :
    (map.entries.filter fun entry => decide (entry.1 = key)) = [⟨key, value⟩] := by
  have others : ((map.erase key).entries.filter fun entry => decide (entry.1 = key)) = [] := by
    refine List.filter_eq_nil_iff.mpr ?_
    rintro ⟨other, held⟩ member same
    exact (lookup_erase_eq_some.mp (mem_entries_iff.mp member)).1 (of_decide_eq_true same)
  refine List.perm_singleton.mp (((entries_perm_erase found).filter _).trans (List.Perm.of_eq ?_))
  rw [List.filter_cons, others]
  exact if_pos (decide_eq_true rfl)

theorem length_insert_of_notMem {map : HashMap Key Value} {key : Key} (value : Value)
    (absent : key ∉ map) : (map.insert key value).entries.length = map.entries.length + 1 := by
  rw [AList.entries_insert_of_notMem absent, List.length_cons]

theorem length_erase_of_mem {map : HashMap Key Value} {key : Key} (present : key ∈ map) :
    (map.erase key).entries.length + 1 = map.entries.length := by
  obtain ⟨value, found⟩ := exists_lookup_of_mem present
  rw [(entries_perm_erase found).length_eq, List.length_cons]

theorem length_insert_le (map : HashMap Key Value) (key : Key) (value : Value) :
    (map.insert key value).entries.length ≤ map.entries.length + 1 := by
  by_cases present : key ∈ map
  · have erased := length_erase_of_mem present
    change (map.erase key).entries.length + 1 ≤ _
    omega
  · rw [length_insert_of_notMem value present]

theorem length_erase_le (map : HashMap Key Value) (key : Key) :
    (map.erase key).entries.length ≤ map.entries.length := by
  by_cases present : key ∈ map
  · have shorter := length_erase_of_mem present
    omega
  · exact Nat.le_of_eq (congrArg List.length (List.kerase_of_notMem_keys present))

/-! ## Retaining the entries that pass a test -/

/-- Keep the entries that pass the test. -/
def retain (test : Key → Value → Bool) (map : HashMap Key Value) : HashMap Key Value where
  entries := map.entries.filter fun entry => test entry.1 entry.2
  nodupKeys := map.nodupKeys.sublist List.filter_sublist

theorem lookup_retain_eq_some {test : Key → Value → Bool} {map : HashMap Key Value}
    {key : Key} {value : Value} :
    (map.retain test).lookup key = some value ↔
      map.lookup key = some value ∧ test key value = true := by
  rw [← mem_entries_iff, ← mem_entries_iff]
  exact List.mem_filter

theorem mem_retain {test : Key → Value → Bool} {map : HashMap Key Value} {key : Key} :
    key ∈ map.retain test ↔ ∃ value, map.lookup key = some value ∧ test key value = true := by
  constructor
  · intro present
    obtain ⟨value, found⟩ := exists_lookup_of_mem present
    exact ⟨value, lookup_retain_eq_some.mp found⟩
  · rintro ⟨value, found⟩
    exact mem_of_lookup (lookup_retain_eq_some.mpr found)

/-- A test on keys alone keeps the entry of every key that passes. -/
theorem lookup_retain_of_key {test : Key → Value → Bool} {map : HashMap Key Value} {key : Key}
    (passes : ∀ value, test key value = true) : (map.retain test).lookup key = map.lookup key := by
  cases found : map.lookup key with
  | none =>
      rw [AList.lookup_eq_none] at found ⊢
      exact fun present => found (mem_of_lookup (mem_retain.mp present).choose_spec.1)
  | some value => exact lookup_retain_eq_some.mpr ⟨found, passes value⟩

theorem lookup_retain (test : Key → Value → Bool) (map : HashMap Key Value) (key : Key) :
    (map.retain test).lookup key = (map.lookup key).filter (test key) := by
  refine Option.ext fun value => ?_
  rw [lookup_retain_eq_some, Option.filter_eq_some_iff]

/-! ## Changing all values -/

/-- Replace every value. -/
def mapValues (change : Key → Value → Value) (map : HashMap Key Value) : HashMap Key Value where
  entries := map.entries.map fun entry => ⟨entry.1, change entry.1 entry.2⟩
  nodupKeys := by
    have sameKeys : (map.entries.map fun entry : Sigma fun _ : Key => Value =>
        (⟨entry.1, change entry.1 entry.2⟩ : Sigma fun _ : Key => Value)).keys =
        map.entries.keys := List.map_map
    rw [List.NodupKeys, sameKeys]
    exact map.nodupKeys

theorem lookup_mapValues (change : Key → Value → Value) (map : HashMap Key Value) (key : Key) :
    (map.mapValues change).lookup key = (map.lookup key).map (change key) := by
  cases found : map.lookup key with
  | none =>
      rw [AList.lookup_eq_none] at found
      refine AList.lookup_eq_none.mpr fun present => found ?_
      obtain ⟨value, inMapped⟩ := exists_lookup_of_mem present
      obtain ⟨entry, member, same⟩ := List.mem_map.mp (mem_entries_iff.mpr inMapped)
      cases same
      exact List.mem_keys_of_mem member
  | some value =>
      exact mem_entries_iff.mp (List.mem_map.mpr ⟨_, mem_entries_iff.mpr found, rfl⟩)

/-- Among the entries that pass a test at most the one of its own key has the key. -/
theorem countP_key (map : HashMap Key Value) (key : Key) (test : Value → Bool) :
    map.entries.countP (fun entry => decide (entry.1 = key) && test entry.2) =
      if (map.lookup key).any test then 1 else 0 := by
  have othersFail : ∀ rest : HashMap Key Value, key ∉ rest →
      rest.entries.countP (fun entry => decide (entry.1 = key) && test entry.2) = 0 := by
    intro rest absent
    refine List.countP_eq_zero.mpr fun entry member passed => absent ?_
    rw [← of_decide_eq_true (Bool.and_eq_true_iff.mp passed).1]
    exact List.mem_keys_of_mem member
  cases found : map.lookup key with
  | none => exact othersFail map (AList.lookup_eq_none.mp found)
  | some value =>
      rw [(entries_perm_erase found).countP_eq, List.countP_cons, othersFail _
        (fun present => (AList.mem_erase.mp present).1 rfl), Nat.zero_add, decide_eq_true rfl]
      rfl

/-! ## The entry with the least stamp -/

/-- The key of the first entry, in iteration order, whose stamp is least. -/
def oldest (order : IterationOrder) (stamp : Value → Nat) (map : HashMap Key Value) :
    Option Key :=
  ((order.arrange map.entries).argmin fun entry => stamp entry.2).map Sigma.fst

omit [DecidableEq Key] in
theorem oldest_mem {order : IterationOrder} {stamp : Value → Nat} {map : HashMap Key Value}
    {key : Key} (chosen : oldest order stamp map = some key) : key ∈ map := by
  obtain ⟨entry, selected, keyEq⟩ := Option.map_eq_some_iff.mp chosen
  have member : entry ∈ map.entries := order.mem_arrange.mp (List.argmin_mem selected)
  rw [← keyEq]
  exact List.mem_keys_of_mem member

omit [DecidableEq Key] in
/-- Only the empty map has no oldest entry. -/
theorem oldest_eq_none {order : IterationOrder} {stamp : Value → Nat}
    {map : HashMap Key Value} (missing : oldest order stamp map = none) :
    map.entries = [] := by
  have none := Option.map_eq_none_iff.mp missing
  rw [List.argmin_eq_none] at none
  have empty := order.perm map.entries
  rw [none] at empty
  exact empty.symm.eq_nil

/-- A map at its cap that gives up its oldest entry has room for a new one. -/
theorem length_insert_oldest (order : IterationOrder) (stamp : Value → Nat)
    {map : HashMap Key Value} {cap : Nat} (positive : 0 < cap)
    (short : map.entries.length ≤ cap) (key : Key) (value : Value) :
    ((match oldest order stamp map with
      | none => map
      | some first => map.erase first).insert key value).entries.length ≤ cap := by
  have inserted := length_insert_le (match oldest order stamp map with
    | none => map
    | some first => map.erase first) key value
  cases chosen : oldest order stamp map with
  | none =>
      rw [chosen] at inserted
      have empty := oldest_eq_none chosen
      rw [empty] at inserted
      exact Nat.le_trans inserted positive
  | some first =>
      rw [chosen] at inserted
      have shorter := length_erase_of_mem (oldest_mem chosen)
      dsimp only at inserted ⊢
      omega

/-! ## Insertion into a capped map -/

/-- The oldest entry of a full map, which a new entry takes the place of. -/
def displaced (order : IterationOrder) (stamp : Value → Nat) (cap : Nat)
    (map : HashMap Key Value) : Option Key :=
  if cap ≤ map.entries.length then oldest order stamp map else none

/-- Insert an entry; past the cap it takes the place of the oldest one. -/
def insertDisplacing (order : IterationOrder) (stamp : Value → Nat) (cap : Nat)
    (map : HashMap Key Value) (key : Key) (value : Value) : HashMap Key Value :=
  ((displaced order stamp cap map).elim map map.erase).insert key value

/-! ## Sums over all entries -/

/-- The sum of a measure over the entries. -/
def total (measure : Key → Value → Nat) (map : HashMap Key Value) : Nat :=
  (map.entries.map fun entry => measure entry.1 entry.2).sum

omit [DecidableEq Key] in
@[simp]
theorem total_empty (measure : Key → Value → Nat) :
    total measure (∅ : HashMap Key Value) = 0 := rfl

theorem total_erase {measure : Key → Value → Nat} {map : HashMap Key Value} {key : Key}
    {value : Value} (found : map.lookup key = some value) :
    total measure map = measure key value + total measure (map.erase key) := by
  have rearranged := (entries_perm_erase found).map fun entry => measure entry.1 entry.2
  exact rearranged.sum_eq

theorem total_insert (measure : Key → Value → Nat) (map : HashMap Key Value) (key : Key)
    (value : Value) :
    total measure (map.insert key value) =
      measure key value + total measure (map.erase key) := rfl

/-- A key that may be absent contributes the measure of its entry, or nothing. -/
theorem total_eq_getD (measure : Key → Value → Nat) (map : HashMap Key Value) (key : Key)
    {fallback : Value} (weightless : measure key fallback = 0) :
    total measure map =
      measure key ((map.lookup key).getD fallback) + total measure (map.erase key) := by
  cases found : map.lookup key with
  | none =>
      have absent : map.erase key = map :=
        AList.ext (List.kerase_of_notMem_keys (AList.lookup_eq_none.mp found))
      rw [absent, Option.getD_none, weightless, Nat.zero_add]
  | some value =>
      rw [Option.getD_some]
      exact total_erase found

theorem erase_of_notMem {map : HashMap Key Value} {key : Key} (absent : key ∉ map) :
    map.erase key = map :=
  AList.ext (List.kerase_of_notMem_keys absent)

end HashMap

end MarketBenchmark.Foundation.HashMaps
