import MarketBenchmark.Foundation.Streams

/-!
# Programs that may panic

A checked program ends with a value or panics; a fallible one may also end
without a value, as a function that returns an option does.  Reading a slice by
index, cutting it, copying it into an array and calculating with indices panic
where the language says so.  `Returns` and `Yields` are the two kinds of total
correctness: the program does not panic, and its value meets the condition.
-/

namespace MarketBenchmark.Foundation.Panics

open Streams

/-- Why a program panics; a loop that outruns its bound counts as one. -/
inductive Panic where
  | index
  | slice
  | arithmetic
  | copy
  | divergence
  deriving DecidableEq, Repr

abbrev Checked (Value : Type) : Type := Except Panic Value

abbrev Fallible (Value : Type) : Type := OptionT (Except Panic) Value

/-! ## Total correctness -/

variable {First Second : Type}

/-- The program ends with a value that meets the condition. -/
def Returns (program : Checked First) (Meets : First → Prop) : Prop :=
  ∃ value, program = .ok value ∧ Meets value

/-- The program ends, and if it has a value, the value meets the condition. -/
def Yields (program : Fallible First) (Meets : First → Prop) : Prop :=
  ∃ result, program.run = .ok result ∧ ∀ value, result = some value → Meets value

namespace Returns

variable {program : Checked First} {next : First → Checked Second}
  {Meets : First → Prop} {Later : Second → Prop}

theorem pure {value : First} (meets : Meets value) :
    Returns (Pure.pure value : Checked First) Meets := ⟨value, rfl, meets⟩

theorem bind (returns : Returns program Meets)
    (continues : ∀ value, Meets value → Returns (next value) Later) :
    Returns (program >>= next) Later := by
  obtain ⟨value, ran, meets⟩ := returns
  subst ran
  exact continues value meets

theorem mono {Weaker : First → Prop} (returns : Returns program Meets)
    (weakens : ∀ value, Meets value → Weaker value) : Returns program Weaker := by
  obtain ⟨value, ran, meets⟩ := returns
  exact ⟨value, ran, weakens value meets⟩

end Returns

namespace Yields

variable {program : Fallible First} {next : First → Fallible Second}
  {Meets : First → Prop} {Later : Second → Prop}

theorem pure {value : First} (meets : Meets value) :
    Yields (Pure.pure value : Fallible First) Meets := by
  refine ⟨some value, rfl, ?_⟩
  rintro other ⟨⟩
  exact meets

theorem failure : Yields (Alternative.failure : Fallible First) Meets := ⟨none, rfl, nofun⟩

theorem bind (yields : Yields program Meets)
    (continues : ∀ value, Meets value → Yields (next value) Later) :
    Yields (program >>= next) Later := by
  obtain ⟨result, ran, meets⟩ := yields
  cases result with
  | none =>
      refine ⟨none, ?_, nofun⟩
      rw [OptionT.run_bind, ran]
      rfl
  | some value =>
      obtain ⟨final, continued, later⟩ := continues value (meets value rfl)
      refine ⟨final, ?_, later⟩
      rw [OptionT.run_bind, ran]
      exact continued

/-- A checked program within a fallible one. -/
theorem lift {program : Checked First} (returns : Returns program Meets) :
    Yields (liftM program) Meets := by
  obtain ⟨value, ran, meets⟩ := returns
  subst ran
  refine ⟨some value, rfl, ?_⟩
  rintro other ⟨⟩
  exact meets

theorem mono {Weaker : First → Prop} (yields : Yields program Meets)
    (weakens : ∀ value, Meets value → Weaker value) : Yields program Weaker := by
  obtain ⟨result, ran, meets⟩ := yields
  exact ⟨result, ran, fun value some => weakens value (meets value some)⟩

/-- Looking at the result of a fallible program. -/
theorem run (yields : Yields program Meets) :
    Returns program.run fun result => ∀ value, result = some value → Meets value := yields

end Yields

/-! ## Runs with a known result -/

theorem run_bind_of_some {program : Fallible First} {value : First}
    (ran : program.run = .ok (some value)) (next : First → Fallible Second) :
    (program >>= next).run = (next value).run := by
  rw [OptionT.run_bind, ran]
  rfl

theorem run_bind_of_none {program : Fallible First}
    (ran : program.run = .ok none) (next : First → Fallible Second) :
    (program >>= next).run = .ok none := by
  rw [OptionT.run_bind, ran]
  rfl

theorem run_lift_bind {program : Checked First} {value : First}
    (ran : program = .ok value) (next : First → Fallible Second) :
    ((liftM program : Fallible First) >>= next).run = (next value).run := by
  subst ran
  rfl

theorem bind_of_ok {program : Checked First} {value : First}
    (ran : program = .ok value) (next : First → Checked Second) :
    program >>= next = next value := by
  subst ran
  rfl

/-- A bind with a value went through a value of its first part. -/
theorem run_bind_eq_some {program : Fallible First} {next : First → Fallible Second}
    {final : Second} (ran : (program >>= next).run = .ok (some final)) :
    ∃ value, program.run = .ok (some value) ∧ (next value).run = .ok (some final) := by
  rw [OptionT.run_bind] at ran
  cases first : program.run with
  | error panic =>
      rw [first] at ran
      cases ran
  | ok result =>
      rw [first] at ran
      cases result with
      | none => cases ran
      | some value => exact ⟨value, rfl, ran⟩

theorem run_lift_bind_eq_some {program : Checked First} {next : First → Fallible Second}
    {final : Second} (ran : ((liftM program : Fallible First) >>= next).run = .ok (some final)) :
    ∃ value, program = .ok value ∧ (next value).run = .ok (some final) := by
  cases program with
  | error panic => cases ran
  | ok value => exact ⟨value, rfl, ran⟩

/-! ## Calculating with indices -/

def usizeBound : Nat := 2 ^ 64

/-- `first + second` -/
def addUsize (first second : Nat) : Checked Nat :=
  if first + second < usizeBound then pure (first + second) else throw .arithmetic

/-- `first - second` -/
def subUsize (first second : Nat) : Checked Nat :=
  if second ≤ first then pure (first - second) else throw .arithmetic

/-- `first * second` -/
def mulUsize (first second : Nat) : Checked Nat :=
  if first * second < usizeBound then pure (first * second) else throw .arithmetic

/-- `first.checked_add(second)?` -/
def checkedAdd (first second : Nat) : Fallible Nat :=
  if first + second < usizeBound then pure (first + second) else failure

/-- `first.checked_sub(second)?` -/
def checkedSub (first second : Nat) : Fallible Nat :=
  if second ≤ first then pure (first - second) else failure

theorem addUsize_of_lt {first second : Nat} (fits : first + second < usizeBound) :
    addUsize first second = .ok (first + second) := if_pos fits

theorem addUsize_eq_ok {first second sum : Nat} (added : addUsize first second = .ok sum) :
    sum = first + second := by
  unfold addUsize at added
  split at added
  · exact (Except.ok.inj added).symm
  · cases added

theorem subUsize_of_le {first second : Nat} (le : second ≤ first) :
    subUsize first second = .ok (first - second) := if_pos le

theorem mulUsize_of_lt {first second : Nat} (fits : first * second < usizeBound) :
    mulUsize first second = .ok (first * second) := if_pos fits

theorem checkedAdd_of_lt {first second : Nat} (fits : first + second < usizeBound) :
    (checkedAdd first second).run = .ok (some (first + second)) := by
  unfold checkedAdd
  rw [if_pos fits]
  rfl

theorem checkedSub_of_le {first second : Nat} (le : second ≤ first) :
    (checkedSub first second).run = .ok (some (first - second)) := by
  unfold checkedSub
  rw [if_pos le]
  rfl

theorem checkedSub_of_lt {first second : Nat} (lt : first < second) :
    (checkedSub first second).run = .ok none := by
  unfold checkedSub
  rw [if_neg (Nat.not_le_of_gt lt)]
  rfl

theorem returns_addUsize {first second : Nat} (fits : first + second < usizeBound) :
    Returns (addUsize first second) fun sum => sum = first + second :=
  ⟨_, addUsize_of_lt fits, rfl⟩

theorem returns_subUsize {first second : Nat} (le : second ≤ first) :
    Returns (subUsize first second) fun difference => difference = first - second :=
  ⟨_, subUsize_of_le le, rfl⟩

theorem returns_mulUsize {first second : Nat} (fits : first * second < usizeBound) :
    Returns (mulUsize first second) fun product => product = first * second :=
  ⟨_, mulUsize_of_lt fits, rfl⟩

theorem yields_checkedAdd (first second : Nat) :
    Yields (checkedAdd first second) fun sum => sum = first + second ∧ sum < usizeBound := by
  unfold checkedAdd
  split
  · next fits => exact Yields.pure ⟨rfl, fits⟩
  · exact Yields.failure

/-! ## Slices -/

/-- No allocation holds more bytes than this. -/
def isizeMax : Nat := 2 ^ 63 - 1

/-- A slice of bytes. -/
structure Slice where
  bytes : List UInt8
  short : bytes.length ≤ isizeMax

namespace Slice

variable (data : Slice)

def length : Nat := data.bytes.length

theorem length_add_lt {margin : Nat} (small : margin ≤ isizeMax) :
    data.length + margin < usizeBound := by
  have short := data.short
  unfold length usizeBound
  unfold isizeMax at small short
  omega

theorem add_lt {index margin : Nat} (within : index ≤ data.length) (small : margin ≤ isizeMax) :
    index + margin < usizeBound :=
  Nat.lt_of_le_of_lt (Nat.add_le_add_right within margin) (data.length_add_lt small)

/-- `data.get(index)?` -/
def get (index : Nat) : Fallible UInt8 := OptionT.mk (pure data.bytes[index]?)

/-- `data[index]` -/
def byteAt (index : Nat) : Checked UInt8 :=
  match data.bytes[index]? with
  | some byte => pure byte
  | none => throw .index

/-- `[data[start], data[start + 1], …]`, so many bytes. -/
def bytesAt (start : Nat) : Nat → Checked (List UInt8)
  | 0 => pure []
  | size + 1 => do
      let byte ← data.byteAt start
      let rest ← bytesAt (start + 1) size
      pure (byte :: rest)

theorem lt_usizeBound {index : Nat} (within : index ≤ data.length) : index < usizeBound :=
  data.add_lt within (Nat.zero_le isizeMax)

def empty : Slice where
  bytes := []
  short := Nat.zero_le isizeMax

/-- `extend_from_slice`; no vector outgrows the largest allocation. -/
def extend (more : Slice) : Checked Slice :=
  if short : (data.bytes ++ more.bytes).length ≤ isizeMax then
    pure { bytes := data.bytes ++ more.bytes, short := short }
  else throw .arithmetic

theorem returns_extend {more : Slice} (short : data.length + more.length ≤ isizeMax) :
    Returns (data.extend more) fun both => both.bytes = data.bytes ++ more.bytes := by
  unfold length at short
  rw [← List.length_append] at short
  unfold extend
  rw [dif_pos short]
  exact ⟨_, rfl, rfl⟩

/-- The bytes from one index up to another. -/
def cut (start stop : Nat) : Slice where
  bytes := (data.bytes.take stop).drop start
  short := by
    refine Nat.le_trans ?_ data.short
    rw [List.length_drop, List.length_take]
    omega

/-- `&data[start..stop]` -/
def range (start stop : Nat) : Checked Slice :=
  if start ≤ stop ∧ stop ≤ data.length then pure (data.cut start stop) else throw .slice

/-- `data.get(start..stop)?` -/
def getRange (start stop : Nat) : Fallible Slice :=
  if start ≤ stop ∧ stop ≤ data.length then pure (data.cut start stop) else failure

/-- `[*data.get(start + offset)?, …]`, offset by offset. -/
def getAll (start : Nat) : List Nat → Fallible (List UInt8)
  | [] => pure []
  | offset :: rest => do
      let byte ← data.get (← addUsize start offset)
      let bytes ← getAll start rest
      pure (byte :: bytes)

theorem length_cut {start stop : Nat} (within : stop ≤ data.length) :
    (data.cut start stop).bytes.length = stop - start := by
  unfold length at within
  unfold cut
  rw [List.length_drop, List.length_take, Nat.min_eq_left within]

/-- What a cut holds, it holds where it was cut. -/
theorem occursAt_cut (start stop : Nat) :
    OccursAt data.bytes start (data.cut start stop).bytes := by
  unfold OccursAt cut
  dsimp only
  rw [List.drop_take]
  exact List.take_prefix _ _

/-- A cut where a piece occurs is the piece. -/
theorem cut_of_occursAt {start stop : Nat} {piece : List UInt8}
    (occurs : OccursAt data.bytes start piece) (size : start + piece.length = stop) :
    (data.cut start stop).bytes = piece := by
  subst size
  unfold cut
  dsimp only
  rw [List.drop_take, Nat.add_sub_cancel_left]
  exact (List.prefix_iff_eq_take.mp occurs).symm

theorem eq_of_bytes {first second : Slice} (same : first.bytes = second.bytes) :
    first = second := by
  cases first
  cases second
  cases same
  rfl

theorem drop_of_some {index : Nat} {byte : UInt8} (found : data.bytes[index]? = some byte) :
    data.bytes.drop index = byte :: data.bytes.drop (index + 1) := by
  obtain ⟨within, same⟩ := List.getElem?_eq_some_iff.mp found
  rw [List.drop_eq_getElem_cons within, same]

theorem lt_of_getElem?_eq_some {index : Nat} {byte : UInt8}
    (found : data.bytes[index]? = some byte) : index < data.length :=
  (List.getElem?_eq_some_iff.mp found).1

/-! ## Reading -/

theorem get_run {index : Nat} {byte : UInt8} (found : data.bytes[index]? = some byte) :
    (data.get index).run = .ok (some byte) := by
  unfold get
  rw [found]
  rfl

theorem get_eq_some {index : Nat} {byte : UInt8} (ran : (data.get index).run = .ok (some byte)) :
    data.bytes[index]? = some byte := Except.ok.inj ran

theorem yields_get (index : Nat) :
    Yields (data.get index) fun byte => data.bytes[index]? = some byte :=
  ⟨_, rfl, fun _ found => found⟩

theorem byteAt_of_some {index : Nat} {byte : UInt8} (found : data.bytes[index]? = some byte) :
    data.byteAt index = .ok byte := by
  unfold byteAt
  rw [found]
  rfl

theorem exists_getElem?_of_lt {index : Nat} (within : index < data.length) :
    ∃ byte, data.bytes[index]? = some byte :=
  ⟨_, List.getElem?_eq_getElem within⟩

theorem returns_byteAt {index : Nat} (within : index < data.length) :
    Returns (data.byteAt index) fun byte => data.bytes[index]? = some byte := by
  have found : data.bytes[index]? = some (data.bytes.get ⟨index, within⟩) :=
    List.getElem?_eq_getElem within
  exact ⟨_, data.byteAt_of_some found, found⟩

theorem byteAt_of_lt {index : Nat} (within : index < data.length) :
    data.byteAt index = .ok (data.bytes.getD index 0) := by
  have found : data.bytes[index]? = some (data.bytes.getD index 0) := by
    rw [List.getD_eq_getElem _ _ within]
    exact List.getElem?_eq_getElem within
  exact data.byteAt_of_some found

theorem bytesAt_of_le {start size : Nat} (within : start + size ≤ data.length) :
    data.bytesAt start size = .ok ((data.bytes.drop start).take size) := by
  induction size generalizing start with
  | zero => rfl
  | succ size ih =>
      have inside : start < data.length := by omega
      obtain ⟨byte, found⟩ := data.exists_getElem?_of_lt inside
      unfold bytesAt
      rw [bind_of_ok (data.byteAt_of_some found), bind_of_ok (ih (by omega)),
        data.drop_of_some found]
      rfl

theorem range_of_le {start stop : Nat} (le : start ≤ stop) (within : stop ≤ data.length) :
    data.range start stop = .ok (data.cut start stop) := if_pos ⟨le, within⟩

theorem returns_range {start stop : Nat} (le : start ≤ stop) (within : stop ≤ data.length) :
    Returns (data.range start stop) fun part => part = data.cut start stop :=
  ⟨_, data.range_of_le le within, rfl⟩

theorem getRange_run {start stop : Nat} (le : start ≤ stop) (within : stop ≤ data.length) :
    (data.getRange start stop).run = .ok (some (data.cut start stop)) := by
  unfold getRange
  rw [if_pos ⟨le, within⟩]
  rfl

theorem getRange_run_of_lt {start stop : Nat} (lt : stop < start) :
    (data.getRange start stop).run = .ok none := by
  unfold getRange
  rw [if_neg fun both => Nat.not_le.mpr lt both.1]
  rfl

theorem cut_length (start : Nat) : (data.cut start data.length).bytes = data.bytes.drop start := by
  change (data.bytes.take data.bytes.length).drop start = data.bytes.drop start
  rw [List.take_length]

theorem yields_getRange (start stop : Nat) : Yields (data.getRange start stop) fun part =>
    part = data.cut start stop ∧ start ≤ stop ∧ stop ≤ data.length := by
  unfold getRange
  split
  · next within => exact Yields.pure ⟨rfl, within⟩
  · exact Yields.failure

theorem yields_getAll {start : Nat} (within : start ≤ data.length) {offsets : List Nat}
    (small : ∀ offset ∈ offsets, offset ≤ isizeMax) :
    Yields (data.getAll start offsets) fun bytes =>
      bytes.length = offsets.length ∧ ∀ offset ∈ offsets, start + offset < data.length := by
  induction offsets with
  | nil => exact Yields.pure ⟨rfl, nofun⟩
  | cons offset rest ih =>
      have fits := data.add_lt within (small offset List.mem_cons_self)
      refine Yields.bind (Yields.lift (returns_addUsize fits)) ?_
      rintro _ rfl
      refine Yields.bind (data.yields_get (start + offset)) fun byte found => ?_
      refine Yields.bind (ih fun other member => small other (List.mem_cons_of_mem _ member)) ?_
      rintro bytes ⟨same, others⟩
      refine Yields.pure ⟨congrArg (· + 1) same, ?_⟩
      intro other member
      rcases List.mem_cons.mp member with rfl | member
      · exact data.lt_of_getElem?_eq_some found
      · exact others other member

/-- Reading bytes behind an index, and returning a value of them with the index past them. -/
theorem yields_readBehind {Value : Type} {index last : Nat} (within : index < data.length)
    {offsets : List Nat} (member : last ∈ offsets)
    (small : ∀ offset ∈ offsets, offset < isizeMax) (value : List UInt8 → Value) :
    Yields (do
      let bytes ← data.getAll index offsets
      pure (value bytes, ← addUsize index (last + 1))) fun read =>
        index < read.2 ∧ read.2 ≤ data.length := by
  refine Yields.bind (data.yields_getAll within.le fun offset member =>
    (small offset member).le) ?_
  rintro bytes ⟨_, inside⟩
  refine Yields.bind (Yields.lift (returns_addUsize (data.add_lt within.le (small last member)))) ?_
  rintro _ rfl
  exact Yields.pure ⟨by dsimp only; omega, inside last member⟩

/-- A value of the byte at an index, with the index past it. -/
theorem yields_readHere {Value : Type} {index : Nat} (within : index < data.length)
    (value : Value) : Yields (do pure (value, ← addUsize index 1)) fun read =>
      index < read.2 ∧ read.2 ≤ data.length := by
  refine Yields.bind (Yields.lift (returns_addUsize (data.add_lt within.le (by decide)))) ?_
  rintro _ rfl
  exact Yields.pure ⟨Nat.lt_succ_self index, within⟩

/-- Reading a piece where it occurs gives the piece. -/
theorem getAll_run {start first : Nat} {piece : List UInt8}
    (occurs : OccursAt data.bytes (start + first) piece) :
    (data.getAll start (List.range' first piece.length)).run = .ok (some piece) := by
  induction piece generalizing first with
  | nil => rfl
  | cons byte rest ih =>
      obtain ⟨found, later⟩ := occursAt_cons.mp occurs
      have within := data.lt_of_getElem?_eq_some found
      have fits : start + first < usizeBound :=
        Nat.lt_trans within (data.length_add_lt (Nat.zero_le _))
      rw [List.length_cons, List.range'_succ]
      unfold getAll
      rw [run_lift_bind (addUsize_of_lt fits), run_bind_of_some (data.get_run found),
        run_bind_of_some (ih later)]
      rfl

/-- Reading the value of a piece that stands behind an index. -/
theorem readBehind_run {Value : Type} {index : Nat} (size : Nat) {piece : List UInt8}
    (occurs : OccursAt data.bytes (index + 1) piece) (length : piece.length = size)
    (within : index + size < data.length) {value : List UInt8 → Value} {decoded : Value}
    (decodes : value piece = decoded) :
    (do
      let bytes ← data.getAll index (List.range' 1 size)
      pure (value bytes, ← addUsize index (size + 1)) : Fallible (Value × Nat)).run
        = .ok (some (decoded, index + (size + 1))) := by
  have fits : index + (size + 1) < usizeBound := data.lt_usizeBound within
  subst length decodes
  rw [run_bind_of_some (data.getAll_run occurs), run_lift_bind (addUsize_of_lt fits)]
  rfl

/-- Bytes that were read stand where they were read. -/
theorem getAll_eq_some {start first size : Nat} {bytes : List UInt8}
    (ran : (data.getAll start (List.range' first size)).run = .ok (some bytes)) :
    bytes.length = size ∧ OccursAt data.bytes (start + first) bytes := by
  induction size generalizing first bytes with
  | zero =>
      cases ran
      exact ⟨rfl, occursAt_nil _⟩
  | succ size ih =>
      rw [List.range'_succ] at ran
      unfold getAll at ran
      obtain ⟨index, added, ran⟩ := run_lift_bind_eq_some ran
      obtain ⟨byte, found, ran⟩ := run_bind_eq_some ran
      obtain ⟨rest, others, ran⟩ := run_bind_eq_some ran
      cases ran
      obtain ⟨length, occurs⟩ := ih others
      have here := data.get_eq_some found
      rw [addUsize_eq_ok added] at here
      exact ⟨congrArg (· + 1) length, occursAt_cons.mpr ⟨here, occurs⟩⟩

/-- What a read behind an index returned, it read there. -/
theorem readBehind_eq_some {Value : Type} {index : Nat} (size : Nat)
    (value : List UInt8 → Value) {result : Value × Nat}
    (ran : (do
      let bytes ← data.getAll index (List.range' 1 size)
      pure (value bytes, ← addUsize index (size + 1)) : Fallible (Value × Nat)).run
        = .ok (some result)) :
    ∃ bytes, bytes.length = size ∧ OccursAt data.bytes (index + 1) bytes ∧
      result = (value bytes, index + (size + 1)) := by
  obtain ⟨bytes, read, ran⟩ := run_bind_eq_some ran
  obtain ⟨next, added, ran⟩ := run_lift_bind_eq_some ran
  obtain ⟨length, occurs⟩ := data.getAll_eq_some read
  refine ⟨bytes, length, occurs, ?_⟩
  rw [← addUsize_eq_ok added]
  exact (Option.some.inj (Except.ok.inj ran)).symm

theorem readHere_eq_some {Value : Type} {index : Nat} {value : Value} {result : Value × Nat}
    (ran : (do pure (value, ← addUsize index 1) : Fallible (Value × Nat)).run
      = .ok (some result)) : result = (value, index + 1) := by
  obtain ⟨next, added, ran⟩ := run_lift_bind_eq_some ran
  rw [← addUsize_eq_ok added]
  exact (Option.some.inj (Except.ok.inj ran)).symm

/-- Reading the first offsets reads a cut. -/
theorem yields_getAll_cut {start : Nat} (size : Nat) (within : start ≤ data.length)
    (small : size ≤ isizeMax) : Yields (data.getAll start (List.range' 0 size)) fun bytes =>
      start + size ≤ data.length ∧ bytes = (data.cut start (start + size)).bytes := by
  have offsets : ∀ offset ∈ List.range' 0 size, offset ≤ isizeMax := by
    intro offset member
    have below := List.mem_range'_1.mp member
    omega
  obtain ⟨result, ran, meets⟩ := data.yields_getAll within offsets
  refine ⟨result, ran, fun bytes same => ?_⟩
  obtain ⟨_, inside⟩ := meets bytes same
  have room : start + size ≤ data.length := by
    cases size with
    | zero => exact within
    | succ last => exact inside last (List.mem_range'_1.mpr ⟨Nat.zero_le last, by omega⟩)
  have occurs : OccursAt data.bytes (start + 0) (data.cut start (start + size)).bytes :=
    data.occursAt_cut start (start + size)
  have read := data.getAll_run occurs
  rw [data.length_cut room, Nat.add_sub_cancel_left, ran, same] at read
  exact ⟨room, Option.some.inj (Except.ok.inj read)⟩

end Slice

/-- `array.copy_from_slice(data)` for an array of `size` bytes. -/
def copyArray (size : Nat) (data : Slice) : Checked (Vector UInt8 size) :=
  if fits : data.bytes.length = size then pure ⟨data.bytes.toArray, by rwa [List.size_toArray]⟩
  else throw .copy

theorem returns_copyArray {size : Nat} {data : Slice} (fits : data.bytes.length = size) :
    Returns (copyArray size data) fun array => array.toList = data.bytes := by
  unfold copyArray
  rw [dif_pos fits]
  exact ⟨_, rfl, rfl⟩

theorem copyArray_of_eq {size : Nat} {data : Slice} {array : Vector UInt8 size}
    (same : data.bytes = array.toList) : copyArray size data = .ok array := by
  have fits : data.bytes.length = size := by rw [same, Vector.length_toList]
  obtain ⟨copied, ran, holds⟩ := returns_copyArray fits
  rw [ran]
  exact congrArg Except.ok (Vector.toList_inj.mp (holds.trans same))

end MarketBenchmark.Foundation.Panics
