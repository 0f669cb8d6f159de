import MarketBenchmark.Feeds.HourlyFiles
import MarketBenchmark.Foundation.Runs

/-!
# Tailing the fills of a node

The session looks for the newest hourly file, opens it and goes to its end.  From
there it reads on; after an empty read it looks for a newer file from time to time
and goes on at the start of what it finds.  The node appends lines and rolls to the
next file between any two of these steps.  The loop of the reference feed's script
does the same, with a look after every empty read.
-/

namespace MarketBenchmark.Feeds

open Foundation.Lines Foundation.Runs HourlyPath

def newlineByte : UInt8 := 10

/-- `std::str::from_utf8` succeeds. -/
def isUtf8 (bytes : List UInt8) : Bool := ByteArray.validateUTF8 ⟨bytes.toArray⟩

/-- A line that the node appends, without its newline. -/
structure FillsLine where
  body : List UInt8
  noNewline : newlineByte ∉ body

namespace FillsLine

def bytes (line : FillsLine) : List UInt8 := line.body ++ [newlineByte]

theorem isLine_bytes (line : FillsLine) : IsLine newlineByte line.bytes :=
  ⟨line.body, line.noNewline, rfl⟩

end FillsLine

/-- The bytes of lines, one after the other. -/
def bytesOf (lines : List FillsLine) : List UInt8 := (lines.map FillsLine.bytes).flatten

theorem bytesOf_append (first second : List FillsLine) :
    bytesOf (first ++ second) = bytesOf first ++ bytesOf second := by
  rw [bytesOf, List.map_append, List.flatten_append]
  rfl

theorem FillsLine.bytes_ne_nil (line : FillsLine) : line.bytes ≠ [] :=
  line.isLine_bytes.ne_nil

theorem bytesOf_singleton (line : FillsLine) : bytesOf [line] = line.bytes :=
  List.append_nil line.bytes

theorem bytesOf_eq_nil {lines : List FillsLine} : bytesOf lines = [] ↔ lines = [] := by
  cases lines with
  | nil => exact iff_of_true rfl rfl
  | cons line rest =>
      refine iff_of_false (fun empty => line.bytes_ne_nil ?_) (List.cons_ne_nil line rest)
      exact (List.append_eq_nil_iff.mp empty).1

theorem isLine_of_mem_map {lines : List FillsLine} :
    ∀ line ∈ lines.map FillsLine.bytes, IsLine newlineByte line := by
  intro line member
  obtain ⟨written, _, rfl⟩ := List.mem_map.mp member
  exact written.isLine_bytes

/-! ## The files -/

structure HourlyFile where
  path : HourlyPath
  lines : List FillsLine

/-- The files of a node, from the oldest to the one that it writes. -/
structure HourlyTree where
  older : List HourlyFile
  current : HourlyFile
  inOrder : (older ++ [current]).Pairwise fun first second => Before first.path second.path

namespace HourlyTree

def files (tree : HourlyTree) : List HourlyFile := tree.older ++ [tree.current]

def paths (tree : HourlyTree) : List HourlyPath := tree.files.map HourlyFile.path

/-- The bytes of the file at a path. -/
def content (tree : HourlyTree) (path : HourlyPath) : List UInt8 :=
  ((tree.files.find? fun file => file.path = path).map fun file => bytesOf file.lines).getD []

/-- The node appends a line to its file. -/
def append (tree : HourlyTree) (line : FillsLine) : HourlyTree where
  older := tree.older
  current := { tree.current with lines := tree.current.lines ++ [line] }
  inOrder := by
    refine List.pairwise_append.mpr ⟨(List.pairwise_append.mp tree.inOrder).1, ?_, ?_⟩
    · exact List.pairwise_singleton _ _
    · intro file member current isCurrent
      rw [List.mem_singleton.mp isCurrent]
      exact (List.pairwise_append.mp tree.inOrder).2.2 file member tree.current
        (List.mem_singleton_self _)

/-- The node rolls to the file of a later hour. -/
def roll (tree : HourlyTree) (path : HourlyPath)
    (later : ∀ file ∈ tree.files, Before file.path path) : HourlyTree where
  older := tree.files
  current := { path := path, lines := [] }
  inOrder := by
    refine List.pairwise_append.mpr ⟨tree.inOrder, List.pairwise_singleton _ _, ?_⟩
    intro file member current isCurrent
    rw [List.mem_singleton.mp isCurrent]
    exact later file member

end HourlyTree

/-! ## The session -/

/-- Where the loop is: before a read, before the look for a newer file, or before opening it. -/
inductive Stage where
  | reading
  | rechecking
  | opening (newest : HourlyPath)
  deriving DecidableEq

structure FillsTail where
  path : HourlyPath
  offset : Nat
  buf : List UInt8
  stage : Stage
  deriving DecidableEq

/-- A step of the loop. -/
inductive TailAction where
  | read (count : Nat)
  | readEmpty (recheck : Bool)
  | recheck
  | openNewest

/-- `vec![0u8; 256 * 1024]`. -/
def chunkLength : Nat := 256 * 1024

namespace FillsTail

variable (tail : FillsTail) (tree : HourlyTree)

/-- What the open file holds after the read position. -/
def unread : List UInt8 := (tree.content tail.path).drop tail.offset

/-- The lines and the unfinished rest in the buffer after a read of so many bytes. -/
def cutRead (count : Nat) : List (List UInt8) × List UInt8 :=
  cutLines newlineByte [] (tail.buf ++ (tail.unread tree).take count)

def step : TailAction → Option FillsTail
  | .read count =>
      if tail.stage = .reading ∧ 0 < count ∧ count ≤ chunkLength ∧
          count ≤ (tail.unread tree).length then
        some { tail with offset := tail.offset + count, buf := (tail.cutRead tree count).2 }
      else none
  | .readEmpty recheck =>
      if tail.stage = .reading ∧ tail.unread tree = [] then
        some { tail with stage := if recheck then .rechecking else .reading }
      else none
  | .recheck =>
      if tail.stage = .rechecking then
        match newestHourlyFile tree.paths with
        | some newest =>
            if newest ≠ tail.path then some { tail with stage := .opening newest }
            else some { tail with stage := .reading }
        | none => some { tail with stage := .reading }
      else none
  | .openNewest =>
      match tail.stage with
      | .opening newest => some { path := newest, offset := 0, buf := [], stage := .reading }
      | _ => none

/-- The lines that a step hands to the parser: those that are text. -/
def handed : TailAction → List (List UInt8)
  | .read count => (tail.cutRead tree count).1.filter isUtf8
  | _ => []

/-- Everything before the file that the node writes has been read: nothing is left of the open
file, and the files between are empty. -/
def Drained : Prop :=
  tail.buf = [] ∧ tail.unread tree = [] ∧
    ∀ file ∈ tree.older, Before tail.path file.path → file.lines = []

/-- The step passes over no line: the lines that a read completes are text, and a look that finds
a newer file comes when everything before that file has been read. -/
def Orderly : TailAction → Prop
  | .read count => ∀ line ∈ (tail.cutRead tree count).1, isUtf8 line = true
  | .recheck => tail.path ≠ tree.current.path → tail.Drained tree
  | _ => True

end FillsTail

/-- How far the session is: before the look for a file, before opening it, before going to its
end, or in the loop. -/
inductive FillsPhase where
  | looking
  | found (path : HourlyPath)
  | opened (path : HourlyPath)
  | tailing (tail : FillsTail)

/-- The first file is open. -/
def FillsPhase.isOpen : FillsPhase → Bool
  | looking => false
  | found _ => false
  | opened _ => true
  | tailing _ => true

structure FillsSession where
  tree : HourlyTree
  phase : FillsPhase

/-- A step of the node or of the session. -/
inductive SessionAction where
  | append (line : FillsLine)
  | roll (path : HourlyPath)
  | look
  | openFound
  | seekEnd
  | tail (action : TailAction)

namespace FillsSession

def start (tree : HourlyTree) : FillsSession := ⟨tree, .looking⟩

def step (session : FillsSession) : SessionAction → Option FillsSession
  | .append line => some { session with tree := session.tree.append line }
  | .roll path =>
      if later : ∀ file ∈ session.tree.files, Before file.path path then
        some { session with tree := session.tree.roll path later }
      else none
  | .look =>
      match session.phase with
      | .looking => (newestHourlyFile session.tree.paths).map fun newest =>
          { session with phase := .found newest }
      | _ => none
  | .openFound =>
      match session.phase with
      | .found path => some { session with phase := .opened path }
      | _ => none
  | .seekEnd =>
      match session.phase with
      | .opened path => some
          { session with
            phase := .tailing ⟨path, (session.tree.content path).length, [], .reading⟩ }
      | _ => none
  | .tail action =>
      match session.phase with
      | .tailing tail => (tail.step session.tree action).map fun next =>
          { session with phase := .tailing next }
      | _ => none

/-- The lines that a step hands to the parser. -/
def handed (session : FillsSession) : SessionAction → List (List UInt8)
  | .tail action =>
      match session.phase with
      | .tailing tail => tail.handed session.tree action
      | _ => []
  | _ => []

/-- The line that the node writes in a step after the session opened its first file. -/
def written (session : FillsSession) : SessionAction → List FillsLine
  | .append line => if session.phase.isOpen then [line] else []
  | _ => []

/-- The step passes over no line, and takes in none from before: the files after the one found are
empty when it is opened, nothing is appended to it before the session is at its end, and the loop
goes on in order. -/
def Orderly (session : FillsSession) : SessionAction → Prop
  | .append _ => ∀ path, session.phase = .opened path → path ≠ session.tree.current.path
  | .openFound => ∀ path, session.phase = .found path →
      ∀ file ∈ session.tree.files, Before path file.path → file.lines = []
  | .tail action => ∀ tail, session.phase = .tailing tail → tail.Orderly session.tree action
  | _ => True

end FillsSession

/-! ## Looking up files -/

namespace HourlyTree

variable {tree : HourlyTree} {file : HourlyFile} {path : HourlyPath}

theorem nodup_paths (tree : HourlyTree) : tree.paths.Nodup := by
  refine List.pairwise_map.mpr (tree.inOrder.imp fun {first second} before same => ?_)
  rw [same] at before
  exact Before.irrefl _ before

theorem content_of_mem (member : file ∈ tree.files) :
    tree.content file.path = bytesOf file.lines := by
  unfold content
  cases found : tree.files.find? fun other => other.path = file.path with
  | none =>
      have missed := List.find?_eq_none.mp found file member
      exact absurd (decide_eq_true rfl) missed
  | some other =>
      have samePath : other.path = file.path := by simpa using List.find?_some found
      have same := List.inj_on_of_nodup_map tree.nodup_paths (List.mem_of_find?_eq_some found)
        member samePath
      rw [same]
      rfl

theorem current_mem (tree : HourlyTree) : tree.current ∈ tree.files :=
  List.mem_append_right _ (List.mem_singleton_self _)

/-- The file that the node writes is the newest. -/
theorem eq_or_before_current (member : file ∈ tree.files) :
    file.path = tree.current.path ∨ Before file.path tree.current.path := by
  rcases List.mem_append.mp member with older | isCurrent
  · exact Or.inr ((List.pairwise_append.mp tree.inOrder).2.2 file older _
      (List.mem_singleton_self _))
  · rw [List.mem_singleton.mp isCurrent]
    exact Or.inl rfl

theorem newestHourlyFile_paths (tree : HourlyTree) :
    newestHourlyFile tree.paths = some tree.current.path := by
  refine newestHourlyFile_eq (List.mem_map_of_mem tree.current_mem) fun path listed => ?_
  obtain ⟨file, member, rfl⟩ := List.mem_map.mp listed
  exact eq_or_before_current member

/-- The files after a path. -/
def after (tree : HourlyTree) (path : HourlyPath) : List HourlyFile :=
  tree.files.filter fun file => Before path file.path

/-- The lines of the files after a path. -/
def linesAfter (tree : HourlyTree) (path : HourlyPath) : List FillsLine :=
  (tree.after path).flatMap HourlyFile.lines

theorem linesAfter_append (line : FillsLine) (path : HourlyPath) :
    (tree.append line).linesAfter path =
      tree.linesAfter path ++ if Before path tree.current.path then [line] else [] := by
  simp only [linesAfter, after, files, append, List.filter_append, List.flatMap_append,
    List.append_assoc]
  refine congrArg _ ?_
  by_cases before : Before path tree.current.path
  · simp [before]
  · simp [before]

theorem content_append (line : FillsLine) (path : HourlyPath) :
    (tree.append line).content path =
      tree.content path ++ if path = tree.current.path then line.bytes else [] := by
  split
  next own =>
    subst own
    rw [content_of_mem (tree.current_mem),
      show tree.current.path = (tree.append line).current.path from rfl,
      content_of_mem (current_mem _)]
    exact (bytesOf_append tree.current.lines [line]).trans (by simp [bytesOf])
  next other =>
    have different : ¬tree.current.path = path := fun same => other same.symm
    rw [List.append_nil]
    simp only [content, files, append, List.find?_append, List.find?_cons, List.find?_nil,
      different, decide_false]

theorem linesAfter_roll (later : ∀ file ∈ tree.files, Before file.path path)
    (other : HourlyPath) : (tree.roll path later).linesAfter other = tree.linesAfter other := by
  have split : (tree.roll path later).files = tree.files ++ [⟨path, []⟩] := rfl
  rw [linesAfter, after, split, List.filter_append, List.flatMap_append]
  have empty : (([⟨path, []⟩] : List HourlyFile).filter fun file =>
      Before other file.path).flatMap HourlyFile.lines = [] := by
    rw [List.filter_singleton]
    cases decide (Before other path) <;> rfl
  rw [empty, List.append_nil]
  rfl

theorem content_roll (later : ∀ file ∈ tree.files, Before file.path path)
    (member : file ∈ tree.files) :
    (tree.roll path later).content file.path = tree.content file.path := by
  have kept : file ∈ (tree.roll path later).files := List.mem_append_left _ member
  rw [content_of_mem member, content_of_mem kept]

theorem linesAfter_current (tree : HourlyTree) : tree.linesAfter tree.current.path = [] := by
  have last : tree.after tree.current.path = [] := by
    refine List.filter_eq_nil_iff.mpr fun file member isAfter => ?_
    rcases eq_or_before_current member with same | before
    · rw [same] at isAfter
      exact Before.irrefl _ (of_decide_eq_true isAfter)
    · exact before.asymm (of_decide_eq_true isAfter)
  rw [linesAfter, last]
  rfl

theorem mem_files_append {line : FillsLine} (member : file ∈ (tree.append line).files) :
    file ∈ tree.files ∨ file.path = tree.current.path := by
  rcases List.mem_append.mp member with older | isCurrent
  · exact Or.inl (List.mem_append_left _ older)
  · rw [List.mem_singleton.mp isCurrent]
    exact Or.inr rfl

theorem exists_mem_append (member : file ∈ tree.files) (line : FillsLine) :
    ∃ other ∈ (tree.append line).files, other.path = file.path := by
  rcases List.mem_append.mp member with older | isCurrent
  · exact ⟨file, List.mem_append_left _ older, rfl⟩
  · rw [List.mem_singleton.mp isCurrent]
    exact ⟨_, current_mem _, rfl⟩

/-- What a session at a position of a file has before it. -/
def rest (tree : HourlyTree) (path : HourlyPath) (offset : Nat) : List UInt8 :=
  (tree.content path).drop offset ++ bytesOf (tree.linesAfter path)

theorem rest_append {offset : Nat} (present : ∃ file ∈ tree.files, file.path = path)
    (within : offset ≤ (tree.content path).length) (line : FillsLine) :
    (tree.append line).rest path offset = tree.rest path offset ++ line.bytes := by
  obtain ⟨file, member, isPath⟩ := present
  unfold rest
  rw [content_append, linesAfter_append, bytesOf_append, List.drop_append_of_le_length within]
  by_cases own : path = tree.current.path
  · have notBefore : ¬Before path tree.current.path := by
      rw [own]
      exact Before.irrefl _
    rw [if_pos own, if_neg notBefore, own, linesAfter_current]
    exact (List.append_nil _).trans (by rw [show bytesOf [] = [] from rfl, List.append_nil])
  · have before : Before path tree.current.path := by
      rw [← isPath] at own ⊢
      exact (eq_or_before_current member).resolve_left own
    rw [if_neg own, if_pos before, List.append_nil, bytesOf_singleton, List.append_assoc]

theorem rest_roll (later : ∀ file ∈ tree.files, Before file.path path) {other : HourlyPath}
    (present : ∃ file ∈ tree.files, file.path = other) (offset : Nat) :
    (tree.roll path later).rest other offset = tree.rest other offset := by
  obtain ⟨file, member, rfl⟩ := present
  rw [rest, content_roll later member, linesAfter_roll later]
  rfl

/-- From a file before the one that the node writes there are the files between to pass. -/
theorem rest_eq (before : Before path tree.current.path) (offset : Nat) :
    tree.rest path offset = ((tree.content path).drop offset ++
        bytesOf ((tree.older.filter fun file => Before path file.path).flatMap HourlyFile.lines)) ++
      tree.rest tree.current.path 0 := by
  have last : tree.linesAfter path =
      (tree.older.filter fun file => Before path file.path).flatMap HourlyFile.lines ++
        tree.current.lines := by
    unfold linesAfter after files
    rw [List.filter_append, List.flatMap_append, List.filter_singleton, decide_eq_true before,
      cond_true, List.flatMap_singleton]
  unfold rest
  rw [last, bytesOf_append, linesAfter_current, content_of_mem tree.current_mem,
    List.append_assoc]
  exact congrArg _ (congrArg _ (List.append_nil _).symm)

end HourlyTree

/-! ## What a session still has before it -/

/-- What the loop will come to if it reads on. -/
def FillsTail.ahead (tail : FillsTail) (tree : HourlyTree) : List UInt8 :=
  match tail.stage with
  | .opening newest => tree.rest newest 0
  | _ => tail.buf ++ tree.rest tail.path tail.offset

namespace FillsSession

/-- What the session will come to if it goes on. -/
def ahead (session : FillsSession) : List UInt8 :=
  match session.phase with
  | .looking => []
  | .found _ => []
  | .opened path => bytesOf (session.tree.linesAfter path)
  | .tailing tail => tail.ahead session.tree

end FillsSession

/-- The open file, and the one to be opened, are there. -/
structure FillsTail.Sound (tail : FillsTail) (tree : HourlyTree) : Prop where
  present : ∃ file ∈ tree.files, file.path = tail.path
  within : tail.offset ≤ (tree.content tail.path).length
  opening : ∀ newest, tail.stage = .opening newest → ∃ file ∈ tree.files, file.path = newest

namespace FillsTail

variable {tree : HourlyTree} {tail after : FillsTail} {action : TailAction}

theorem Sound.append (sound : tail.Sound tree) (line : FillsLine) :
    tail.Sound (tree.append line) := by
  have kept : ∀ path, (∃ file ∈ tree.files, file.path = path) →
      ∃ file ∈ (tree.append line).files, file.path = path := by
    rintro path ⟨file, member, rfl⟩
    exact HourlyTree.exists_mem_append member line
  refine ⟨kept _ sound.present, ?_,
    fun newest opening => kept newest (sound.opening newest opening)⟩
  rw [HourlyTree.content_append, List.length_append]
  exact Nat.le_add_right_of_le sound.within

theorem Sound.roll (sound : tail.Sound tree) {path : HourlyPath}
    (later : ∀ file ∈ tree.files, Before file.path path) :
    tail.Sound (tree.roll path later) := by
  have kept : ∀ path, (∃ file ∈ tree.files, file.path = path) →
      ∃ file ∈ (tree.roll _ later).files, file.path = path := by
    rintro path ⟨file, member, rfl⟩
    exact ⟨file, List.mem_append_left _ member, rfl⟩
  refine ⟨kept _ sound.present, ?_,
    fun newest opening => kept newest (sound.opening newest opening)⟩
  obtain ⟨file, member, isPath⟩ := sound.present
  rw [← isPath, HourlyTree.content_roll later member, isPath]
  exact sound.within

theorem Sound.ahead_append (sound : tail.Sound tree) (line : FillsLine) :
    tail.ahead (tree.append line) = tail.ahead tree ++ line.bytes := by
  have inFile := HourlyTree.rest_append sound.present sound.within line
  unfold ahead
  cases stage : tail.stage with
  | opening newest =>
      exact HourlyTree.rest_append (sound.opening newest stage) (Nat.zero_le _) line
  | reading =>
      dsimp only
      rw [inFile, List.append_assoc]
  | rechecking =>
      dsimp only
      rw [inFile, List.append_assoc]

theorem Sound.ahead_roll (sound : tail.Sound tree) {path : HourlyPath}
    (later : ∀ file ∈ tree.files, Before file.path path) :
    tail.ahead (tree.roll path later) = tail.ahead tree := by
  have inFile := HourlyTree.rest_roll later sound.present tail.offset
  unfold ahead
  cases stage : tail.stage with
  | opening newest => exact HourlyTree.rest_roll later (sound.opening newest stage) 0
  | reading => exact congrArg (tail.buf ++ ·) inFile
  | rechecking => exact congrArg (tail.buf ++ ·) inFile

/-- A read moves bytes from the file to the lines and the buffer. -/
theorem cutRead_ahead (tail : FillsTail) (tree : HourlyTree) (count : Nat) :
    (tail.cutRead tree count).1.flatten ++ ((tail.cutRead tree count).2 ++
        tree.rest tail.path (tail.offset + count)) =
      tail.buf ++ tree.rest tail.path tail.offset := by
  have cut := flatten_cutLines newlineByte [] (tail.buf ++ (tail.unread tree).take count)
  have remains : (tail.unread tree).drop count =
      (tree.content tail.path).drop (tail.offset + count) := List.drop_drop
  calc
    (tail.cutRead tree count).1.flatten ++ ((tail.cutRead tree count).2 ++
        tree.rest tail.path (tail.offset + count)) =
      ((tail.cutRead tree count).1.flatten ++ (tail.cutRead tree count).2) ++
        ((tail.unread tree).drop count ++ bytesOf (tree.linesAfter tail.path)) := by
      rw [remains, List.append_assoc]
      rfl
    _ = (tail.buf ++ (tail.unread tree).take count) ++
        ((tail.unread tree).drop count ++ bytesOf (tree.linesAfter tail.path)) := by
      rw [cutRead, cut, List.nil_append]
    _ = tail.buf ++ tree.rest tail.path tail.offset := by
      rw [List.append_assoc, ← List.append_assoc (List.take _ _), List.take_append_drop]
      rfl

theorem isLine_of_mem_cutRead {count : Nat} :
    ∀ line ∈ (tail.cutRead tree count).1, IsLine newlineByte line :=
  (isLine_of_mem_cutLines List.not_mem_nil).1

theorem isLine_of_mem_handed : ∀ line ∈ tail.handed tree action, IsLine newlineByte line := by
  cases action with
  | read count => exact fun line member => isLine_of_mem_cutRead line (List.mem_filter.mp member).1
  | _ => exact nofun

theorem Sound.step (sound : tail.Sound tree) (stepped : tail.step tree action = some after) :
    after.Sound tree := by
  cases action with
  | read count =>
      simp only [FillsTail.step, Option.ite_none_right_eq_some, Option.some.injEq] at stepped
      obtain ⟨⟨reading, _, _, available⟩, rfl⟩ := stepped
      have within := sound.within
      rw [unread, List.length_drop] at available
      refine ⟨sound.present, ?_, fun newest opening => ?_⟩
      · change tail.offset + count ≤ (tree.content tail.path).length
        omega
      · cases reading.symm.trans opening
  | readEmpty recheck =>
      simp only [FillsTail.step, Option.ite_none_right_eq_some, Option.some.injEq] at stepped
      obtain ⟨_, rfl⟩ := stepped
      refine ⟨sound.present, sound.within, ?_⟩
      cases recheck <;> exact nofun
  | recheck =>
      simp only [FillsTail.step, HourlyTree.newestHourlyFile_paths,
        Option.ite_none_right_eq_some] at stepped
      obtain ⟨_, stepped⟩ := stepped
      split at stepped
      · cases stepped
        refine ⟨sound.present, sound.within, fun newest opening => ?_⟩
        cases opening
        exact ⟨tree.current, tree.current_mem, rfl⟩
      · cases stepped
        exact ⟨sound.present, sound.within, nofun⟩
  | openNewest =>
      simp only [FillsTail.step] at stepped
      split at stepped
      next newest stage =>
        cases stepped
        exact ⟨sound.opening newest stage, Nat.zero_le _, nofun⟩
      · cases stepped

/-- Text is passed over unnoticed exactly when there is none. -/
theorem skip_iff {front passed back whole : List UInt8} (same : front ++ (passed ++ back) = whole) :
    front ++ back = whole ↔ passed = [] := by
  rw [← same, List.append_cancel_left_eq]
  exact List.self_eq_append_left

theorem drained_iff : tail.Drained tree ↔ tail.buf ++ (tail.unread tree ++
    bytesOf ((tree.older.filter fun file => Before tail.path file.path).flatMap
      HourlyFile.lines)) = [] := by
  rw [List.append_eq_nil_iff, List.append_eq_nil_iff, bytesOf_eq_nil, List.flatMap_eq_nil_iff]
  refine and_congr_right fun _ => and_congr_right fun _ => forall_congr' fun file => ?_
  rw [List.mem_filter, decide_eq_true_iff]
  exact and_imp.symm

/-- The lines handed over and what is ahead stay what was written exactly when the step passes
over nothing. -/
theorem Sound.kept_step_iff (sound : tail.Sound tree) {lines : List (List UInt8)}
    {whole : List UInt8} (kept : lines.flatten ++ tail.ahead tree = whole)
    (stepped : tail.step tree action = some after) :
    (lines ++ tail.handed tree action).flatten ++ after.ahead tree = whole ↔
      tail.Orderly tree action := by
  cases action with
  | read count =>
      simp only [FillsTail.step, Option.ite_none_right_eq_some, Option.some.injEq] at stepped
      obtain ⟨⟨reading, _, _, _⟩, rfl⟩ := stepped
      have before : tail.ahead tree = tail.buf ++ tree.rest tail.path tail.offset := by
        unfold ahead
        rw [reading]
      have later : ahead { tail with
          offset := tail.offset + count, buf := (tail.cutRead tree count).2 } tree =
          (tail.cutRead tree count).2 ++ tree.rest tail.path (tail.offset + count) := by
        unfold ahead
        dsimp only
        rw [reading]
      rw [before, ← cutRead_ahead tail tree count] at kept
      rw [later, ← kept, List.flatten_append, List.append_assoc, List.append_cancel_left_eq,
        List.append_cancel_right_eq]
      exact flatten_filter_eq_iff isUtf8 fun line member =>
        (isLine_of_mem_cutRead line member).ne_nil
  | readEmpty recheck =>
      simp only [FillsTail.step, Option.ite_none_right_eq_some, Option.some.injEq] at stepped
      obtain ⟨⟨reading, _⟩, rfl⟩ := stepped
      refine iff_of_true ?_ trivial
      change (lines ++ []).flatten ++ _ = whole
      rw [← kept, List.append_nil]
      unfold ahead
      rw [reading]
      cases recheck <;> rfl
  | recheck =>
      simp only [FillsTail.step, HourlyTree.newestHourlyFile_paths,
        Option.ite_none_right_eq_some] at stepped
      obtain ⟨rechecking, stepped⟩ := stepped
      have before : tail.ahead tree = tail.buf ++ tree.rest tail.path tail.offset := by
        unfold ahead
        rw [rechecking]
      change (lines ++ []).flatten ++ _ = whole ↔ _
      rw [List.append_nil]
      split at stepped
      next other =>
        cases stepped
        -- the rest of the open file and the files between are passed over
        have earlier : Before tail.path tree.current.path := by
          obtain ⟨file, member, isPath⟩ := sound.present
          rw [← isPath] at other ⊢
          exact (HourlyTree.eq_or_before_current member).resolve_left other.symm
        rw [before, HourlyTree.rest_eq earlier, ← List.append_assoc tail.buf] at kept
        refine (skip_iff kept).trans (drained_iff.symm.trans ?_)
        exact ⟨fun drained _ => drained, fun orderly => orderly other.symm⟩
      next same =>
        cases stepped
        refine iff_of_true ?_ fun other => absurd (not_not.mp same).symm other
        rw [← kept, before]
        rfl
  | openNewest =>
      simp only [FillsTail.step] at stepped
      split at stepped
      next newest stage =>
        cases stepped
        refine iff_of_true ?_ trivial
        change (lines ++ []).flatten ++ _ = whole
        rw [← kept, List.append_nil]
        unfold ahead
        rw [stage]
        rfl
      · cases stepped

end FillsTail

/-! ## What the session has handed over -/

namespace FillsSession

variable {session after : FillsSession} {action : SessionAction} {lines : List (List UInt8)}
  {since : List FillsLine}

/-- The files that the session knows are there, and nothing counts before the first is open. -/
structure Sound (lines : List (List UInt8)) (since : List FillsLine) (session : FillsSession) :
    Prop where
  areLines : ∀ line ∈ lines, IsLine newlineByte line
  early : session.phase.isOpen = false → lines = [] ∧ since = []
  present : ∀ path, session.phase = .found path ∨ session.phase = .opened path →
    ∃ file ∈ session.tree.files, file.path = path
  loop : ∀ tail, session.phase = .tailing tail → tail.Sound session.tree

/-- The lines handed over and what is ahead are what was written. -/
def Kept (lines : List (List UInt8)) (since : List FillsLine) (session : FillsSession) : Prop :=
  lines.flatten ++ session.ahead = bytesOf since

theorem sound_start (tree : HourlyTree) : Sound [] [] (start tree) where
  areLines := nofun
  early := fun _ => ⟨rfl, rfl⟩
  present := by rintro path (found | opened) <;> contradiction
  loop := nofun

/-- What was handed over is what was written first. -/
theorem Kept.isPrefix (kept : Kept lines since session)
    (areLines : ∀ line ∈ lines, IsLine newlineByte line) :
    lines <+: since.map FillsLine.bytes :=
  isPrefix_of_flatten areLines isLine_of_mem_map kept

theorem isLine_of_mem_handed : ∀ line ∈ session.handed action, IsLine newlineByte line := by
  cases action with
  | tail action =>
      unfold handed
      cases session.phase with
      | tailing tail => exact FillsTail.isLine_of_mem_handed
      | _ => exact nofun
  | _ => exact nofun

theorem Sound.step (sound : Sound lines since session)
    (stepped : session.step action = some after) :
    Sound (lines ++ session.handed action) (since ++ session.written action) after := by
  have areLines : ∀ line ∈ lines ++ session.handed action, IsLine newlineByte line :=
    fun line member => (List.mem_append.mp member).elim (sound.areLines line)
      (isLine_of_mem_handed line)
  obtain ⟨tree, phase⟩ := session
  cases action with
  | append line =>
      cases stepped
      refine ⟨areLines, fun closed => ?_, fun path isPath => ?_, fun tail isTail => ?_⟩
      · obtain ⟨rfl, rfl⟩ := sound.early closed
        exact ⟨rfl, if_neg (by rw [show phase.isOpen = false from closed]; exact nofun)⟩
      · obtain ⟨file, member, rfl⟩ := sound.present path isPath
        exact HourlyTree.exists_mem_append member line
      · exact (sound.loop tail isTail).append line
  | roll path =>
      simp only [step] at stepped
      split at stepped
      next later =>
        cases stepped
        refine ⟨areLines, fun closed => ?_, fun path isPath => ?_, fun tail isTail => ?_⟩
        · obtain ⟨rfl, rfl⟩ := sound.early closed
          exact ⟨rfl, rfl⟩
        · obtain ⟨file, member, isFile⟩ := sound.present path isPath
          exact ⟨file, List.mem_append_left _ member, isFile⟩
        · exact (sound.loop tail isTail).roll later
      · cases stepped
  | look =>
      cases phase with
      | looking =>
          simp only [step, HourlyTree.newestHourlyFile_paths, Option.map_some,
            Option.some.injEq] at stepped
          subst stepped
          obtain ⟨rfl, rfl⟩ := sound.early rfl
          refine ⟨areLines, fun _ => ⟨rfl, rfl⟩, fun path isPath => ?_, nofun⟩
          rcases isPath with found | opened
          · cases found
            exact ⟨tree.current, tree.current_mem, rfl⟩
          · cases opened
      | _ => cases stepped
  | openFound =>
      cases phase with
      | found path =>
          cases stepped
          refine ⟨areLines, nofun, fun other isOther => ?_, nofun⟩
          rcases isOther with found | opened
          · cases found
          · cases opened
            exact sound.present path (Or.inl rfl)
      | _ => cases stepped
  | seekEnd =>
      cases phase with
      | opened path =>
          cases stepped
          refine ⟨areLines, nofun, ?_, fun tail isTail => ?_⟩
          · rintro other (found | opened) <;> contradiction
          · cases isTail
            exact ⟨sound.present path (Or.inr rfl), Nat.le_refl _, nofun⟩
      | _ => cases stepped
  | tail action =>
      cases phase with
      | tailing tail =>
          obtain ⟨next, moved, rfl⟩ := Option.map_eq_some_iff.mp stepped
          refine ⟨areLines, nofun, ?_, fun other isOther => ?_⟩
          · rintro other (found | opened) <;> contradiction
          · cases isOther
            exact (sound.loop tail rfl).step moved
      | _ => cases stepped

/-- A step keeps what was written exactly when it is in order. -/
theorem Sound.kept_step_iff (sound : Sound lines since session) (kept : Kept lines since session)
    (stepped : session.step action = some after) :
    Kept (lines ++ session.handed action) (since ++ session.written action) after ↔
      session.Orderly action := by
  obtain ⟨tree, phase⟩ := session
  unfold Kept at kept ⊢
  cases action with
  | append line =>
      cases stepped
      change (lines ++ []).flatten ++ _ = bytesOf (since ++ _) ↔ _
      rw [List.append_nil, bytesOf_append, ← kept]
      cases phase with
      | looking => exact iff_of_true (List.append_nil _).symm nofun
      | found path => exact iff_of_true (List.append_nil _).symm nofun
      | opened path =>
          change lines.flatten ++ bytesOf ((tree.append line).linesAfter path) =
            (lines.flatten ++ bytesOf (tree.linesAfter path)) ++ bytesOf [line] ↔ _
          rw [HourlyTree.linesAfter_append, bytesOf_append, List.append_assoc,
            List.append_cancel_left_eq, List.append_cancel_left_eq]
          obtain ⟨file, member, isPath⟩ := sound.present path (Or.inr rfl)
          by_cases own : path = tree.current.path
          · rw [own, if_neg (Before.irrefl _)]
            refine iff_of_false (fun same => line.bytes_ne_nil ?_) fun orderly =>
              orderly _ rfl rfl
            rw [← bytesOf_singleton, ← same]
            rfl
          · have before : Before path tree.current.path := by
              rw [← isPath] at own ⊢
              exact (HourlyTree.eq_or_before_current member).resolve_left own
            rw [if_pos before]
            refine iff_of_true rfl fun other isOther => ?_
            cases isOther
            exact own
      | tailing tail =>
          change lines.flatten ++ tail.ahead (tree.append line) =
            (lines.flatten ++ tail.ahead tree) ++ bytesOf [line] ↔ _
          rw [(sound.loop tail rfl).ahead_append line, bytesOf_singleton, List.append_assoc]
          exact iff_of_true rfl nofun
  | roll path =>
      simp only [FillsSession.step] at stepped
      split at stepped
      next later =>
        cases stepped
        refine iff_of_true ?_ trivial
        change (lines ++ []).flatten ++ _ = bytesOf (since ++ [])
        rw [List.append_nil, List.append_nil, ← kept]
        cases phase with
        | looking => rfl
        | found other => rfl
        | opened other =>
            change _ ++ bytesOf ((tree.roll path later).linesAfter other) = _
            rw [HourlyTree.linesAfter_roll later]
            rfl
        | tailing tail =>
            change _ ++ tail.ahead (tree.roll path later) = _
            rw [(sound.loop tail rfl).ahead_roll later]
            rfl
      · cases stepped
  | look =>
      cases phase with
      | looking =>
          simp only [FillsSession.step, HourlyTree.newestHourlyFile_paths, Option.map_some,
            Option.some.injEq] at stepped
          subst stepped
          refine iff_of_true ?_ trivial
          change (lines ++ []).flatten ++ _ = bytesOf (since ++ [])
          rw [List.append_nil, List.append_nil, ← kept]
          rfl
      | _ => cases stepped
  | openFound =>
      cases phase with
      | found path =>
          cases stepped
          obtain ⟨rfl, rfl⟩ := sound.early rfl
          change bytesOf (tree.linesAfter path) = [] ↔ _
          rw [bytesOf_eq_nil, HourlyTree.linesAfter, List.flatMap_eq_nil_iff]
          constructor
          · intro empty other isOther file member isAfter
            cases isOther
            exact empty file (List.mem_filter.mpr ⟨member, decide_eq_true isAfter⟩)
          · intro orderly file kept
            obtain ⟨member, isAfter⟩ := List.mem_filter.mp kept
            exact orderly path rfl file member (of_decide_eq_true isAfter)
      | _ => cases stepped
  | seekEnd =>
      cases phase with
      | opened path =>
          cases stepped
          refine iff_of_true ?_ trivial
          change (lines ++ []).flatten ++ ([] ++ tree.rest path (tree.content path).length) =
            bytesOf (since ++ [])
          rw [List.append_nil, List.append_nil, ← kept, HourlyTree.rest, List.drop_length]
          rfl
      | _ => cases stepped
  | tail action =>
      cases phase with
      | tailing tail =>
          obtain ⟨next, moved, rfl⟩ := Option.map_eq_some_iff.mp stepped
          change (lines ++ tail.handed tree action).flatten ++ next.ahead tree =
            bytesOf (since ++ []) ↔ _
          rw [List.append_nil, (sound.loop tail rfl).kept_step_iff kept moved]
          refine ⟨fun orderly other isOther => ?_, fun orderly => orderly tail rfl⟩
          cases isOther
          exact orderly
      | _ => cases stepped

theorem sound_of_run {tree : HourlyTree} {actions : List SessionAction}
    (executed : run step (start tree) actions = some session) :
    Sound (emissions step handed (start tree) actions)
      (emissions step written (start tree) actions) session := by
  refine run_induction (fun actions session => Sound (emissions step handed (start tree) actions)
    (emissions step written (start tree) actions) session) (sound_start tree) ?_ executed
  intro actions before action after reached sound stepped
  rw [emissions_concat handed action reached, emissions_concat written action reached]
  exact sound.step stepped

end FillsSession

/--
A run is in order exactly when at every moment the lines handed over, followed by what the
session has before it, are the lines that the node wrote since the first file was opened.
The lines handed over are then the first of those written.
-/
theorem handed_isPrefix_iff {tree : HourlyTree} {actions : List SessionAction}
    {session : FillsSession}
    (executed : run FillsSession.step (.start tree) actions = some session) :
    StepsMeet FillsSession.step FillsSession.Orderly (.start tree) actions ↔
      ∀ reached state, reached <+: actions →
        run FillsSession.step (.start tree) reached = some state →
        (emissions FillsSession.step FillsSession.handed (.start tree) reached).flatten ++
            state.ahead =
          bytesOf (emissions FillsSession.step FillsSession.written (.start tree) reached) ∧
        emissions FillsSession.step FillsSession.handed (.start tree) reached <+:
          (emissions FillsSession.step FillsSession.written (.start tree) reached).map
            FillsLine.bytes := by
  have along := kept_along_iff
    (fun reached (state : FillsSession) => state.Kept
      (emissions FillsSession.step FillsSession.handed (.start tree) reached)
      (emissions FillsSession.step FillsSession.written (.start tree) reached))
    (rfl : FillsSession.Kept [] [] (.start tree))
    (fun reached before action after toBefore kept stepped => by
      rw [emissions_concat FillsSession.handed action toBefore,
        emissions_concat FillsSession.written action toBefore]
      exact (FillsSession.sound_of_run toBefore).kept_step_iff kept stepped) executed
  rw [← along]
  refine forall₂_congr fun reached state => forall₂_congr fun _ toState => ?_
  have areLines := (FillsSession.sound_of_run toState).areLines
  exact ⟨fun kept => ⟨kept, kept.isPrefix areLines⟩, And.left⟩

/-! ## Runs around a new file -/

/-- The line that a step of the node appends. -/
def SessionAction.appended : SessionAction → Option FillsLine
  | .append line => some line
  | _ => none

namespace FillsSession

variable {session final : FillsSession}

theorem isOpen_step {action : SessionAction} (isOpen : session.phase.isOpen = true)
    (stepped : session.step action = some final) : final.phase.isOpen = true := by
  obtain ⟨tree, phase⟩ := session
  cases action with
  | append line =>
      cases stepped
      exact isOpen
  | roll path =>
      simp only [step] at stepped
      split at stepped
      · cases stepped
        exact isOpen
      · cases stepped
  | look =>
      cases phase with
      | looking => cases isOpen
      | _ => cases stepped
  | openFound =>
      cases phase with
      | found path => cases isOpen
      | _ => cases stepped
  | seekEnd =>
      cases phase with
      | opened path =>
          cases stepped
          rfl
      | _ => cases stepped
  | tail action =>
      cases phase with
      | tailing tail =>
          obtain ⟨next, _, rfl⟩ := Option.map_eq_some_iff.mp stepped
          rfl
      | _ => cases stepped

/-- Once the first file is open, all that is appended counts. -/
theorem emissions_written {actions : List SessionAction} (isOpen : session.phase.isOpen = true)
    (executed : run step session actions = some final) :
    emissions step written session actions = actions.filterMap SessionAction.appended := by
  induction actions generalizing session with
  | nil => rfl
  | cons action rest ih =>
      rw [run_cons] at executed
      obtain ⟨next, stepped, onward⟩ := Option.bind_eq_some_iff.mp executed
      rw [emissions_cons written rest stepped, ih (isOpen_step isOpen stepped) onward,
        List.filterMap_cons]
      cases action with
      | append line => exact congrArg (· ++ _) (if_pos isOpen)
      | _ => rfl

theorem step_roll {path : HourlyPath}
    (later : ∀ file ∈ session.tree.files, Before file.path path) :
    session.step (.roll path) = some { session with tree := session.tree.roll path later } :=
  dif_pos later

end FillsSession

/-- The session finds the newest file, opens it and goes to its end. -/
def toEnd : List SessionAction := [.look, .openFound, .seekEnd]

/-- The session at the end of the newest file. -/
def atEnd (tree : HourlyTree) : FillsSession :=
  ⟨tree, .tailing ⟨tree.current.path, (tree.content tree.current.path).length, [], .reading⟩⟩

theorem run_toEnd (tree : HourlyTree) :
    run FillsSession.step (.start tree) toEnd = some (atEnd tree) := by
  have looked : (FillsSession.start tree).step .look =
      some ⟨tree, .found tree.current.path⟩ := by
    simp only [FillsSession.step, FillsSession.start, HourlyTree.newestHourlyFile_paths,
      Option.map_some]
  rw [toEnd, run_cons, looked]
  rfl

theorem stepsMeet_toEnd (tree : HourlyTree) :
    StepsMeet FillsSession.step FillsSession.Orderly (.start tree) toEnd := by
  refine ⟨trivial, fun found looked => ⟨fun path isPath file member isAfter => ?_, fun _ _ =>
    ⟨trivial, fun _ _ => trivial⟩⟩⟩
  simp only [FillsSession.step, FillsSession.start, HourlyTree.newestHourlyFile_paths,
    Option.map_some, Option.some.injEq] at looked
  subst looked
  cases isPath
  rcases HourlyTree.eq_or_before_current member with same | before
  · rw [same] at isAfter
    exact absurd isAfter (Before.irrefl _)
  · exact absurd isAfter before.asymm

/-- Only what comes after counts. -/
theorem emissions_after_toEnd {tree : HourlyTree} {actions : List SessionAction}
    {final : FillsSession} (executed : run FillsSession.step (atEnd tree) actions = some final) :
    emissions FillsSession.step FillsSession.handed (.start tree) (toEnd ++ actions) =
        emissions FillsSession.step FillsSession.handed (atEnd tree) actions ∧
      emissions FillsSession.step FillsSession.written (.start tree) (toEnd ++ actions) =
        actions.filterMap SessionAction.appended := by
  constructor
  · have silent : emissions FillsSession.step FillsSession.handed (.start tree) toEnd = [] :=
      emissions_eq_nil _ (by simp [toEnd, FillsSession.handed]) _
    rw [emissions_append _ _ (run_toEnd tree), silent, List.nil_append]
  · have silent : emissions FillsSession.step FillsSession.written (.start tree) toEnd = [] :=
      emissions_eq_nil _ (by simp [toEnd, FillsSession.written]) _
    rw [emissions_append _ _ (run_toEnd tree), silent, List.nil_append,
      FillsSession.emissions_written rfl executed]

/-- The last file of a day, which is still empty. -/
def lastHour : HourlyTree where
  older := []
  current := { path := { day := "20260101".toList, hour := Nat.toDigits 10 23 }, lines := [] }
  inOrder := List.pairwise_singleton _ _

/-- The first file of the next day. -/
def firstHour : HourlyPath := { day := "20260102".toList, hour := Nat.toDigits 10 0 }

/-- The second file of the next day. -/
def secondHour : HourlyPath := { day := "20260102".toList, hour := Nat.toDigits 10 1 }

def firstLine : FillsLine := { body := [120], noNewline := by decide }
def secondLine : FillsLine := { body := [121], noNewline := by decide }

/-- The tail follows the node and reads a line of the new file. -/
def sampleLook : List SessionAction := [.tail .recheck, .tail .openNewest, .tail (.read 2)]

/-- The node rolls after its line has been read. -/
def sampleRoll : List SessionAction :=
  [.append firstLine, .tail (.read 2), .tail (.readEmpty true), .roll firstHour,
    .append secondLine]

/-- The node appends a line and rolls between the empty read and the look. -/
def lateLine : List SessionAction :=
  [.tail (.readEmpty true), .append firstLine, .roll firstHour, .append secondLine]

/-- The node rolls twice between the empty read and the look. -/
def passedFile : List SessionAction :=
  [.tail (.readEmpty true), .roll firstHour, .append firstLine, .roll secondHour,
    .append secondLine]

section Look

variable {tree : HourlyTree} {tail : FillsTail}

/-- A look that finds a newer file takes the tail to the file that the node writes. -/
theorem step_recheck (stage : tail.stage = .rechecking) (other : tree.current.path ≠ tail.path) :
    FillsSession.step ⟨tree, .tailing tail⟩ (.tail .recheck) =
      some ⟨tree, .tailing { tail with stage := .opening tree.current.path }⟩ := by
  simp only [FillsSession.step, FillsTail.step, HourlyTree.newestHourlyFile_paths, stage, other,
    ne_eq, not_false_eq_true, if_true, Option.map_some]

/-- A read of the new file hands over its line. -/
theorem cutRead_secondLine (line : tree.content tree.current.path = secondLine.bytes) :
    FillsTail.cutRead ⟨tree.current.path, 0, [], .reading⟩ tree 2 = ([secondLine.bytes], []) := by
  rw [FillsTail.cutRead, FillsTail.unread, line]
  rfl

theorem handed_sampleLook (stage : tail.stage = .rechecking)
    (other : tree.current.path ≠ tail.path)
    (line : tree.content tree.current.path = secondLine.bytes) :
    (∃ final, run FillsSession.step ⟨tree, .tailing tail⟩ sampleLook = some final) ∧
    emissions FillsSession.step FillsSession.handed ⟨tree, .tailing tail⟩ sampleLook =
      [secondLine.bytes] := by
  have looked := step_recheck stage other
  have opened : FillsSession.step
      ⟨tree, .tailing { tail with stage := .opening tree.current.path }⟩ (.tail .openNewest) =
      some ⟨tree, .tailing ⟨tree.current.path, 0, [], .reading⟩⟩ := rfl
  have unread : FillsTail.unread ⟨tree.current.path, 0, [], .reading⟩ tree = secondLine.bytes :=
    line
  have canRead : Stage.reading = .reading ∧ 0 < 2 ∧ 2 ≤ chunkLength ∧
      2 ≤ (FillsTail.unread ⟨tree.current.path, 0, [], .reading⟩ tree).length := by
    rw [unread]
    exact ⟨rfl, by decide, by decide, by decide⟩
  have read : ∃ final, FillsSession.step
      ⟨tree, .tailing ⟨tree.current.path, 0, [], .reading⟩⟩ (.tail (.read 2)) = some final :=
    ⟨_, Option.map_eq_some_iff.mpr ⟨_, if_pos canRead, rfl⟩⟩
  obtain ⟨final, read⟩ := read
  constructor
  · refine ⟨final, ?_⟩
    rw [sampleLook, run_cons, looked, Option.bind_some, run_cons, opened, Option.bind_some]
    exact (run_singleton _ (SessionAction.tail (.read 2))).trans read
  · have handedOver : FillsSession.handed ⟨tree, .tailing ⟨tree.current.path, 0, [], .reading⟩⟩
        (.tail (.read 2)) = [secondLine.bytes] := by
      simp only [FillsSession.handed, FillsTail.handed, cutRead_secondLine line]
      rfl
    rw [sampleLook, emissions_cons _ _ looked, emissions_cons _ _ opened, emissions_singleton,
      handedOver]
    rfl

theorem stepsMeet_sampleLook (stage : tail.stage = .rechecking)
    (other : tree.current.path ≠ tail.path)
    (line : tree.content tree.current.path = secondLine.bytes) (drained : tail.Drained tree) :
    StepsMeet FillsSession.step FillsSession.Orderly ⟨tree, .tailing tail⟩ sampleLook := by
  refine (stepsMeet_cons_of_step _ (step_recheck stage other)).mpr ⟨fun _ isTail _ => ?_, ?_⟩
  · cases isTail
    exact drained
  refine (stepsMeet_cons_of_step _ rfl).mpr ⟨fun _ _ => trivial, fun _ isTail => ?_,
    fun _ _ => trivial⟩
  cases isTail
  simp only [FillsTail.Orderly, cutRead_secondLine line]
  exact List.forall_mem_singleton.mpr (by decide)

end Look

/-- The line of the old file is text, and it is read before the look. -/
theorem stepsMeet_sampleRoll :
    StepsMeet FillsSession.step FillsSession.Orderly (atEnd lastHour) sampleRoll := by
  refine (stepsMeet_cons_of_step _ rfl).mpr ⟨nofun, ?_⟩
  refine (stepsMeet_cons_of_step _ rfl).mpr ⟨fun tail isTail => ?_, ?_⟩
  · cases isTail
    change ∀ line ∈ [firstLine.bytes], isUtf8 line = true
    exact List.forall_mem_singleton.mpr (by decide)
  refine (stepsMeet_cons_of_step _ rfl).mpr ⟨fun _ _ => trivial, ?_⟩
  refine (stepsMeet_cons_of_step _ rfl).mpr ⟨trivial, ?_⟩
  exact (stepsMeet_cons_of_step _ rfl).mpr ⟨nofun, trivial⟩

theorem handed_isPrefix_sample : ∃ session : FillsSession,
    run FillsSession.step (.start lastHour) (toEnd ++ (sampleRoll ++ sampleLook)) =
      some session ∧
    (emissions FillsSession.step FillsSession.handed (.start lastHour)
        (toEnd ++ (sampleRoll ++ sampleLook))).flatten ++ session.ahead =
      bytesOf [firstLine, secondLine] ∧
    emissions FillsSession.step FillsSession.handed (.start lastHour)
        (toEnd ++ (sampleRoll ++ sampleLook)) <+: [firstLine, secondLine].map FillsLine.bytes := by
  have later : ∀ file ∈ (lastHour.append firstLine).files, Before file.path firstHour := by decide
  let rolled := ((lastHour.append firstLine).roll firstHour later).append secondLine
  let tail : FillsTail := ⟨lastHour.current.path, 2, [], .rechecking⟩
  have opened := run_toEnd lastHour
  have reached : run FillsSession.step (atEnd lastHour) sampleRoll =
      some ⟨rolled, .tailing tail⟩ := rfl
  have stage : tail.stage = .rechecking := rfl
  have other : firstHour ≠ lastHour.current.path := by decide
  have line : rolled.content rolled.current.path = secondLine.bytes := rfl
  have drained : tail.Drained rolled := by
    refine ⟨rfl, rfl, fun file member isAfter => ?_⟩
    rw [List.mem_singleton.mp member] at isAfter
    exact absurd isAfter (Before.irrefl _)
  obtain ⟨⟨session, looked⟩, _⟩ := handed_sampleLook stage other line
  have onward : run FillsSession.step (atEnd lastHour) (sampleRoll ++ sampleLook) =
      some session := by
    rw [run_append, reached]
    exact looked
  have executed : run FillsSession.step (.start lastHour) (toEnd ++ (sampleRoll ++ sampleLook)) =
      some session := by
    rw [run_append, opened]
    exact onward
  have met : StepsMeet FillsSession.step FillsSession.Orderly (.start lastHour)
      (toEnd ++ (sampleRoll ++ sampleLook)) := by
    refine stepsMeet_append_of (stepsMeet_toEnd lastHour) fun middle toMiddle => ?_
    cases Option.some.inj (toMiddle.symm.trans opened)
    refine stepsMeet_append_of stepsMeet_sampleRoll fun middle toMiddle => ?_
    cases Option.some.inj (toMiddle.symm.trans reached)
    exact stepsMeet_sampleLook stage other line drained
  have kept := (handed_isPrefix_iff executed).mp met _ session List.prefix_rfl executed
  rw [(emissions_after_toEnd onward).2] at kept
  exact ⟨session, executed, kept⟩

/-- The run hands over lines that are no prefix of those written since the session opened. -/
def LosesLines (tree : HourlyTree) (actions : List SessionAction) : Prop :=
  (∃ session, run FillsSession.step (.start tree) actions = some session) ∧
    ¬emissions FillsSession.step FillsSession.handed (.start tree) actions <+:
      (emissions FillsSession.step FillsSession.written (.start tree) actions).map
        FillsLine.bytes

def SessionAction.isRead : SessionAction → Bool
  | .tail (.read _) => true
  | _ => false

/-- Only reads hand over lines. -/
theorem FillsSession.handed_eq_nil {action : SessionAction} (noRead : action.isRead = false)
    (session : FillsSession) : session.handed action = [] := by
  cases action with
  | tail action =>
      unfold FillsSession.handed
      cases session.phase with
      | tailing tail =>
          cases action with
          | read count => cases noRead
          | _ => rfl
      | _ => rfl
  | _ => rfl

/-- Without a read before the look, the line of the old hour is not handed over. -/
theorem losesLines_of {front : List SessionAction} {tree : HourlyTree} {tail : FillsTail}
    (reached : run FillsSession.step (atEnd lastHour) front = some ⟨tree, .tailing tail⟩)
    (noRead : ∀ action ∈ front, action.isRead = false)
    (appends : front.filterMap SessionAction.appended = [firstLine, secondLine])
    (stage : tail.stage = .rechecking) (other : tree.current.path ≠ tail.path)
    (line : tree.content tree.current.path = secondLine.bytes) :
    LosesLines lastHour (toEnd ++ (front ++ sampleLook)) := by
  obtain ⟨⟨session, looked⟩, handed⟩ := handed_sampleLook stage other line
  have onward : run FillsSession.step (atEnd lastHour) (front ++ sampleLook) = some session := by
    rw [run_append, reached]
    exact looked
  have silent : emissions FillsSession.step FillsSession.handed (atEnd lastHour) front = [] :=
    emissions_eq_nil _ (fun action member => FillsSession.handed_eq_nil (noRead action member)) _
  obtain ⟨sameHanded, sameWritten⟩ := emissions_after_toEnd onward
  constructor
  · refine ⟨session, ?_⟩
    rw [run_append, run_toEnd]
    exact onward
  · rw [sameHanded, sameWritten, emissions_append _ _ reached, silent, handed,
      List.filterMap_append, appends]
    decide

/-- A line that the node appends between the empty read and the look is lost, and so are the lines
of a file that it has left by then. -/
theorem lines_lost :
    LosesLines lastHour (toEnd ++ (lateLine ++ sampleLook)) ∧
      LosesLines lastHour (toEnd ++ (passedFile ++ sampleLook)) := by
  have afterLine : ∀ file ∈ (lastHour.append firstLine).files, Before file.path firstHour := by
    decide
  have afterHour : ∀ file ∈ lastHour.files, Before file.path firstHour := by decide
  have inOrder : Before firstHour secondHour := before_of_hour_lt _ Nat.zero_lt_one (by decide)
  have afterFirst : ∀ file ∈ ((lastHour.roll firstHour afterHour).append firstLine).files,
      Before file.path secondHour := by
    intro file member
    rcases HourlyTree.mem_files_append member with earlier | isFirst
    · rcases List.mem_append.mp earlier with old | isFirst
      · exact (afterHour file old).trans inOrder
      · rw [List.mem_singleton.mp isFirst]
        exact inOrder
    · rw [isFirst]
      exact inOrder
  let waiting : FillsTail := ⟨lastHour.current.path, 0, [], .rechecking⟩
  have late : run FillsSession.step (atEnd lastHour) lateLine = some
      ⟨((lastHour.append firstLine).roll firstHour afterLine).append secondLine,
        .tailing waiting⟩ := rfl
  have waits : run FillsSession.step (atEnd lastHour) [.tail (.readEmpty true)] = some
      ⟨lastHour, .tailing waiting⟩ := rfl
  have rolled := run_concat_of_step waits (FillsSession.step_roll afterHour)
  have appended := run_concat_of_step rolled
    (rfl : FillsSession.step _ (.append firstLine) = some _)
  have again := run_concat_of_step appended (FillsSession.step_roll afterFirst)
  have passed := run_concat_of_step again
    (rfl : FillsSession.step _ (.append secondLine) = some _)
  have other : firstHour ≠ lastHour.current.path := by decide
  have another : secondHour ≠ lastHour.current.path := by decide
  constructor
  · exact losesLines_of late (by decide) rfl rfl other rfl
  · exact losesLines_of passed (by decide) rfl rfl another rfl

end MarketBenchmark.Feeds
