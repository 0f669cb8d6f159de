import MarketBenchmark.Foundation.OrderedMaps

/-!
# Directories that survive a crash

A directory maps names to files.  Its changes are atomic and take effect at
once for whoever looks at it, but a crash loses any of those that were made
since the last successful synchronisation.  Two properties are stable under
every crash: that only certain entries are there, and that an entry is kept.
-/

namespace MarketBenchmark.Foundation

/-- One atomic change of a directory; a move puts the moved file under its new name. -/
inductive Change (Name File : Type*) where
  | write (name : Name) (file : File)
  | remove (name : Name)
  | move (source target : Name) (file : File)
  deriving DecidableEq

namespace Change

variable {Name File : Type*}

/-- The entry that the change puts into the directory. -/
def written : Change Name File → Option (Name × File)
  | write name file => some (name, file)
  | remove _ => none
  | move _ target file => some (target, file)

/-- The names whose entries the change replaces or takes away. -/
def touched : Change Name File → List Name
  | write name _ => [name]
  | remove name => [name]
  | move source target _ => [source, target]

theorem mem_touched_of_written {change : Change Name File} {entry : Name × File}
    (written : change.written = some entry) : entry.1 ∈ change.touched := by
  cases change with
  | write name file =>
      cases written
      exact List.mem_cons_self
  | remove name => cases written
  | move source target file =>
      cases written
      exact List.mem_cons_of_mem source List.mem_cons_self

variable [LinearOrder Name]

def apply (map : OrderedMap Name File) : Change Name File → OrderedMap Name File
  | write name file => map.insert name file
  | remove name => map.erase name
  | move source target file => (map.erase source).insert target file

theorem mem_apply {map : OrderedMap Name File} {change : Change Name File}
    {entry : Name × File} (member : entry ∈ change.apply map) :
    change.written = some entry ∨ entry ∈ map := by
  cases change with
  | write name file =>
      exact (OrderedMap.mem_insert.mp member).imp (fun same => congrArg some same.symm) And.left
  | remove name => exact Or.inr (OrderedMap.mem_erase.mp member).1
  | move source target file =>
      refine (OrderedMap.mem_insert.mp member).imp (fun same => congrArg some same.symm) ?_
      exact fun found => (OrderedMap.mem_erase.mp found.1).1

theorem mem_apply_of_untouched {map : OrderedMap Name File} {change : Change Name File}
    {entry : Name × File} (member : entry ∈ map) (untouched : entry.1 ∉ change.touched) :
    entry ∈ change.apply map := by
  cases change with
  | write name file =>
      exact OrderedMap.mem_insert.mpr (Or.inr ⟨member, List.ne_of_not_mem_cons untouched⟩)
  | remove name => exact OrderedMap.mem_erase.mpr ⟨member, List.ne_of_not_mem_cons untouched⟩
  | move source target file =>
      have other := List.not_mem_of_not_mem_cons untouched
      exact OrderedMap.mem_insert.mpr (Or.inr
        ⟨OrderedMap.mem_erase.mpr ⟨member, List.ne_of_not_mem_cons untouched⟩,
          List.ne_of_not_mem_cons other⟩)

theorem mem_apply_of_written {map : OrderedMap Name File} {change : Change Name File}
    {entry : Name × File} (written : change.written = some entry) : entry ∈ change.apply map := by
  cases change with
  | write name file => exact OrderedMap.mem_insert.mpr (Or.inl (Option.some.inj written).symm)
  | remove name => exact nomatch written
  | move source target file =>
      exact OrderedMap.mem_insert.mpr (Or.inl (Option.some.inj written).symm)

end Change

/-- What a crash leaves for certain, and the changes since. -/
structure Disk (Name File : Type*) [LinearOrder Name] where
  durable : OrderedMap Name File
  pending : List (Change Name File)

namespace Disk

variable {Name File : Type*} [LinearOrder Name]

def empty : Disk Name File where
  durable := OrderedMap.empty
  pending := []

/-- The directory when some of the pending changes survive. -/
def image (disk : Disk Name File) (survived : List (Change Name File)) : OrderedMap Name File :=
  survived.foldl Change.apply disk.durable

/-- The directory as a running process sees it. -/
def visible (disk : Disk Name File) : OrderedMap Name File := disk.image disk.pending

def record (disk : Disk Name File) (change : Change Name File) : Disk Name File :=
  { disk with pending := disk.pending ++ [change] }

/-- A successful synchronisation. -/
def sync (disk : Disk Name File) : Disk Name File where
  durable := disk.visible
  pending := []

theorem visible_record (disk : Disk Name File) (change : Change Name File) :
    (disk.record change).visible = change.apply disk.visible := List.foldl_append

@[simp]
theorem visible_sync (disk : Disk Name File) : disk.sync.visible = disk.visible := rfl

/-! ## What every crash leaves -/

/-- Every entry that a crash can leave has the property. -/
def Only (disk : Disk Name File) (Property : Name × File → Prop) : Prop :=
  (∀ entry ∈ disk.durable, Property entry) ∧
    ∀ change ∈ disk.pending, ∀ entry, change.written = some entry → Property entry

/-- Every crash leaves the entry. -/
def Keeps (disk : Disk Name File) (entry : Name × File) : Prop :=
  entry ∈ disk.durable ∧ ∀ change ∈ disk.pending, entry.1 ∉ change.touched

variable {disk : Disk Name File} {Property Weaker : Name × File → Prop} {entry : Name × File}

theorem Only.image (only : disk.Only Property) {survived : List (Change Name File)}
    (sublist : survived.Sublist disk.pending) : ∀ entry ∈ disk.image survived, Property entry := by
  obtain ⟨base, pending⟩ := only
  unfold Disk.image
  have survivors : ∀ change ∈ survived, ∀ entry, change.written = some entry → Property entry :=
    fun change member => pending change (sublist.subset member)
  clear sublist pending
  generalize disk.durable = map at base
  induction survived generalizing map with
  | nil => exact base
  | cons change rest ih =>
      refine ih (fun other member => survivors other (List.mem_cons_of_mem change member)) _
        fun entry member => ?_
      rcases Change.mem_apply member with written | before
      · exact survivors change List.mem_cons_self entry written
      · exact base entry before

theorem Only.visible (only : disk.Only Property) : ∀ entry ∈ disk.visible, Property entry :=
  only.image (List.Sublist.refl _)

theorem Only.record (only : disk.Only Property) {change : Change Name File}
    (written : ∀ entry, change.written = some entry → Property entry) :
    (disk.record change).Only Property := by
  refine ⟨only.1, fun other member => ?_⟩
  rcases List.mem_append.mp member with before | here
  · exact only.2 other before
  · rw [List.mem_singleton.mp here]
    exact written

theorem Only.imp (weaken : ∀ entry, Property entry → Weaker entry) (only : disk.Only Property) :
    disk.Only Weaker :=
  ⟨fun entry member => weaken entry (only.1 entry member),
    fun change member entry written => weaken entry (only.2 change member entry written)⟩

theorem Only.and {Other : Name × File → Prop} (only : disk.Only Property)
    (other : disk.Only Other) : disk.Only fun entry => Property entry ∧ Other entry :=
  ⟨fun entry member => ⟨only.1 entry member, other.1 entry member⟩,
    fun change member entry written =>
      ⟨only.2 change member entry written, other.2 change member entry written⟩⟩

/-- A synchronisation forgets what is no longer visible. -/
theorem only_sync (visible : ∀ entry ∈ disk.visible, Property entry) : disk.sync.Only Property :=
  ⟨visible, nofun⟩

theorem Keeps.image (keeps : disk.Keeps entry) {survived : List (Change Name File)}
    (sublist : survived.Sublist disk.pending) : entry ∈ disk.image survived := by
  obtain ⟨base, pending⟩ := keeps
  unfold Disk.image
  have survivors : ∀ change ∈ survived, entry.1 ∉ change.touched :=
    fun change member => pending change (sublist.subset member)
  clear sublist pending
  generalize disk.durable = map at base
  induction survived generalizing map with
  | nil => exact base
  | cons change rest ih =>
      exact ih (fun other member => survivors other (List.mem_cons_of_mem change member)) _
        (Change.mem_apply_of_untouched base (survivors change List.mem_cons_self))

theorem Keeps.visible (keeps : disk.Keeps entry) : entry ∈ disk.visible :=
  keeps.image (List.Sublist.refl _)

theorem Keeps.record (keeps : disk.Keeps entry) {change : Change Name File}
    (untouched : entry.1 ∉ change.touched) : (disk.record change).Keeps entry := by
  refine ⟨keeps.1, fun other member => ?_⟩
  rcases List.mem_append.mp member with before | here
  · exact keeps.2 other before
  · rw [List.mem_singleton.mp here]
    exact untouched

/-- A synchronisation makes what is visible last. -/
theorem keeps_sync (visible : entry ∈ disk.visible) : disk.sync.Keeps entry := ⟨visible, nofun⟩

/-! ## Crashes -/

/-- After a crash some pending changes survived, and files may be torn. -/
def crash (disk : Disk Name File) (survived : List (Change Name File))
    (tear : Name → File → File) : Disk Name File where
  durable := (disk.image survived).mapValues tear
  pending := []

theorem Only.crash (only : disk.Only Property) {survived : List (Change Name File)}
    (sublist : survived.Sublist disk.pending) {tear : Name → File → File}
    (torn : ∀ entry, Property entry → Weaker (entry.1, tear entry.1 entry.2)) :
    (disk.crash survived tear).Only Weaker := by
  refine ⟨fun entry member => ?_, nofun⟩
  obtain ⟨old, before, same⟩ := OrderedMap.mem_mapValues.mp member
  have weaker := torn (entry.1, old) (only.image sublist _ before)
  rwa [same] at weaker

theorem Keeps.crash (keeps : disk.Keeps entry) {survived : List (Change Name File)}
    (sublist : survived.Sublist disk.pending) {tear : Name → File → File}
    (whole : tear entry.1 entry.2 = entry.2) : (disk.crash survived tear).Keeps entry :=
  ⟨OrderedMap.mem_mapValues.mpr ⟨entry.2, keeps.image sublist, whole⟩, nofun⟩

end Disk

end MarketBenchmark.Foundation
