import Mathlib

/-!
# Framing a stream

A framer looks at the first items of a buffer: it waits for more, takes a
frame, or finds the stream out of step.  What it decides of a frame depends on
that frame's items alone, so it does not matter in which pieces the stream
arrives.
-/

namespace MarketBenchmark.Foundation.Framing

variable {Item Frame Error Stamp : Type*}

inductive Verdict (Frame Error : Type*) where
  | wait
  | stop (error : Error)
  | take (size : Nat) (frame : Frame)

/-- A decision on the first items of a buffer that more items do not change. -/
structure Framer (Item Frame Error : Type*) where
  next : List Item → Verdict Frame Error
  wait_nil : next [] = .wait
  stop_append : ∀ {items error}, next items = .stop error → ∀ more,
    next (items ++ more) = .stop error
  take_append : ∀ {items size frame}, next items = .take size frame → ∀ more,
    next (items ++ more) = .take size frame
  take_local : ∀ {items size frame}, next items = .take size frame →
    next (items.take size) = .take size frame
  take_pos : ∀ {items size frame}, next items = .take size frame → 0 < size
  take_le : ∀ {items size frame}, next items = .take size frame → size ≤ items.length

/-- The frames of a buffer, each with the position past it, and what is left from the
position reached on. -/
structure Drain (Item Frame Error : Type*) where
  frames : List (Nat × Frame)
  reached : Nat
  left : List Item
  error : Option Error

namespace Framer

variable (framer : Framer Item Frame Error)

/-- Take frames as long as there are any; `position` is that of the first item. -/
def drain (position : Nat) (items : List Item) : Drain Item Frame Error :=
  match _taken : framer.next items with
  | .wait => { frames := [], reached := position, left := items, error := none }
  | .stop error => { frames := [], reached := position, left := items, error := some error }
  | .take size frame =>
      let rest := drain (position + size) (items.drop size)
      { rest with frames := (position + size, frame) :: rest.frames }
termination_by items.length
decreasing_by
  have positive := framer.take_pos _taken
  have within := framer.take_le _taken
  rw [List.length_drop]
  omega

variable {framer} {position : Nat} {items : List Item}

theorem drain_wait (waits : framer.next items = .wait) : framer.drain position items =
    { frames := [], reached := position, left := items, error := none } := by
  rw [drain]
  split <;> simp_all

theorem drain_stop {error : Error} (stops : framer.next items = .stop error) :
    framer.drain position items =
      { frames := [], reached := position, left := items, error := some error } := by
  rw [drain]
  split <;> simp_all

theorem drain_take {size : Nat} {frame : Frame} (takes : framer.next items = .take size frame) :
    framer.drain position items =
      { framer.drain (position + size) (items.drop size) with
        frames := (position + size, frame)
          :: (framer.drain (position + size) (items.drop size)).frames } := by
  rw [drain]
  split <;> simp_all

/-- The position reached is that of the first item left. -/
theorem drain_reached (framer : Framer Item Frame Error) (position : Nat) (items : List Item) :
    (framer.drain position items).reached + (framer.drain position items).left.length
      = position + items.length := by
  fun_induction framer.drain position items with
  | case1 position items waits => rfl
  | case2 position items error stops => rfl
  | case3 position items size frame takes rest ih =>
      have reached : rest.reached + rest.left.length
          = position + size + (items.drop size).length := ih
      have within := framer.take_le takes
      rw [List.length_drop] at reached
      dsimp only
      omega

/-- What is left are the items from the position reached on. -/
theorem drain_left (framer : Framer Item Frame Error) (position : Nat) (items : List Item) :
    ∃ taken, items = taken ++ (framer.drain position items).left := by
  fun_induction framer.drain position items with
  | case1 position items waits => exact ⟨[], rfl⟩
  | case2 position items error stops => exact ⟨[], rfl⟩
  | case3 position items size frame takes rest ih =>
      obtain ⟨taken, same⟩ := ih
      refine ⟨items.take size ++ taken, ?_⟩
      rw [List.append_assoc]
      exact (List.take_append_drop size items).symm.trans (congrArg (items.take size ++ ·) same)

/-- What is left without an error is no whole frame. -/
theorem drain_left_waits (position : Nat) (items : List Item)
    (settled : (framer.drain position items).error = none) :
    framer.next (framer.drain position items).left = .wait := by
  fun_induction framer.drain position items with
  | case1 position items waits => exact waits
  | case2 position items error stops => cases settled
  | case3 position items size frame takes rest ih => exact ih settled

/-- Frames end after the start, at most where the drain has reached. -/
theorem drain_ends (framer : Framer Item Frame Error) (position : Nat) (items : List Item) :
    position ≤ (framer.drain position items).reached ∧
      ∀ frame ∈ (framer.drain position items).frames,
        position < frame.1 ∧ frame.1 ≤ (framer.drain position items).reached := by
  fun_induction framer.drain position items with
  | case1 position items waits => exact ⟨Nat.le_refl position, nofun⟩
  | case2 position items error stops => exact ⟨Nat.le_refl position, nofun⟩
  | case3 position items size frame takes rest ih =>
      have after : position + size ≤ rest.reached := ih.1
      have ends := ih.2
      have positive := framer.take_pos takes
      refine ⟨by dsimp only; omega, fun other member => ?_⟩
      rcases List.mem_cons.mp member with rfl | member
      · exact ⟨by dsimp only; omega, after⟩
      · have between := ends other member
        exact ⟨by omega, between.2⟩

/-- A drain of the same items from a later position. -/
theorem drain_shift (framer : Framer Item Frame Error) (base position : Nat) (items : List Item) :
    framer.drain (base + position) items =
      { framer.drain position items with
        frames := (framer.drain position items).frames.map fun frame => (base + frame.1, frame.2)
        reached := base + (framer.drain position items).reached } := by
  fun_induction framer.drain position items with
  | case1 position items waits => exact drain_wait waits
  | case2 position items error stops => exact drain_stop stops
  | case3 position items size frame takes rest ih =>
      rw [drain_take takes, Nat.add_assoc, ih]
      rfl

/-- More items after an error change neither the frames nor the error. -/
theorem drain_append_of_error (more : List Item) (position : Nat) (items : List Item)
    (failed : (framer.drain position items).error ≠ none) :
    framer.drain position (items ++ more) =
      { framer.drain position items with
        left := (framer.drain position items).left ++ more } := by
  fun_induction framer.drain position items with
  | case1 position items waits => exact absurd rfl failed
  | case2 position items error stops => exact drain_stop (framer.stop_append stops more)
  | case3 position items size frame takes rest ih =>
      rw [drain_take (framer.take_append takes more),
        List.drop_append_of_le_length (framer.take_le takes), ih failed]

/-- Without an error the drain goes on where it stopped. -/
theorem drain_append (more : List Item) (position : Nat) (items : List Item)
    (settled : (framer.drain position items).error = none) :
    framer.drain position (items ++ more) =
      let first := framer.drain position items
      let later := framer.drain first.reached (first.left ++ more)
      { later with frames := first.frames ++ later.frames } := by
  fun_induction framer.drain position items with
  | case1 position items waits => rfl
  | case2 position items error stops => cases settled
  | case3 position items size frame takes rest ih =>
      rw [drain_take (framer.take_append takes more),
        List.drop_append_of_le_length (framer.take_le takes), ih settled]
      rfl

/-- Frames that more items complete end among these items. -/
theorem drain_ends_after {left : List Item} (waits : framer.next left = .wait)
    (position : Nat) (more : List Item) :
    ∀ frame ∈ (framer.drain position (left ++ more)).frames, position + left.length < frame.1 := by
  cases verdict : framer.next (left ++ more) with
  | wait =>
      rw [drain_wait verdict]
      exact nofun
  | stop error =>
      rw [drain_stop verdict]
      exact nofun
  | take size frame =>
      have longer : left.length < size := by
        by_contra short
        have whole := framer.take_local verdict
        rw [List.take_append_of_le_length (Nat.le_of_not_lt short)] at whole
        have taken := framer.take_append whole (left.drop size)
        rw [List.take_append_drop, waits] at taken
        cases taken
      rw [drain_take verdict]
      intro other member
      rcases List.mem_cons.mp member with rfl | later
      · dsimp only
        omega
      · have after := ((drain_ends framer _ _).2 other later).1
        omega

/-! ## Pieces -/

/-- The frames that one piece completed, and the position of the buffer's first item then. -/
structure Batch (Frame Stamp : Type*) where
  stamp : Stamp
  base : Nat
  frames : List (Nat × Frame)

/-- What a stream gave piece by piece, and what is left. -/
structure Fed (Item Frame Error Stamp : Type*) where
  batches : List (Batch Frame Stamp)
  left : List Item
  error : Option Error

/-- Every frame with the stamp of the piece that completed it. -/
def Fed.frames (fed : Fed Item Frame Error Stamp) : List ((Nat × Frame) × Stamp) :=
  fed.batches.flatMap fun batch => batch.frames.map fun frame => (frame, batch.stamp)

variable (framer) in
/-- Append the pieces one after the other, each with a stamp, and drain after each. -/
def feed : Nat → List Item → List (List Item × Stamp) → Fed Item Frame Error Stamp
  | _, left, [] => { batches := [], left := left, error := none }
  | position, left, (piece, stamp) :: pieces =>
      let drained := framer.drain position (left ++ piece)
      let batch := { stamp := stamp, base := position, frames := drained.frames }
      match drained.error with
      | some error => { batches := [batch], left := drained.left, error := some error }
      | none =>
          let rest := feed drained.reached drained.left pieces
          { rest with batches := batch :: rest.batches }

theorem map_fst_stamped {Stamped : Type*} (frames : List Stamped) (stamp : Stamp) :
    (frames.map fun frame => (frame, stamp)).map Prod.fst = frames := by
  rw [List.map_map]
  exact List.map_id frames

/-- The step of `feed` whose drain ends in an error. -/
theorem feed_cons_of_error {left piece : List Item} {stamp : Stamp}
    {pieces : List (List Item × Stamp)} {error : Error}
    (failed : (framer.drain position (left ++ piece)).error = some error) :
    framer.feed position left ((piece, stamp) :: pieces) =
      { batches := [⟨stamp, position, (framer.drain position (left ++ piece)).frames⟩]
        left := (framer.drain position (left ++ piece)).left
        error := some error } := by
  rw [feed]
  dsimp only
  rw [failed]

theorem feed_cons {left piece : List Item} {stamp : Stamp} {pieces : List (List Item × Stamp)}
    (settled : (framer.drain position (left ++ piece)).error = none) :
    framer.feed position left ((piece, stamp) :: pieces) =
      let drained := framer.drain position (left ++ piece)
      let rest := framer.feed drained.reached drained.left pieces
      { rest with batches := ⟨stamp, position, drained.frames⟩ :: rest.batches } := by
  rw [feed]
  dsimp only
  rw [settled]

/-- However the stream is cut into pieces, its frames, its error and, without an error, what
is left are those of the whole. -/
theorem feed_eq_drain {left : List Item} (waits : framer.next left = .wait) (position : Nat)
    (pieces : List (List Item × Stamp)) :
    let fed := framer.feed position left pieces
    let whole := framer.drain position (left ++ (pieces.map Prod.fst).flatten)
    fed.frames.map Prod.fst = whole.frames ∧ fed.error = whole.error ∧
      (whole.error = none → fed.left = whole.left) := by
  induction pieces generalizing position left with
  | nil =>
      rw [List.map_nil, List.flatten_nil, List.append_nil, drain_wait waits]
      exact ⟨rfl, rfl, fun _ => rfl⟩
  | cons head pieces ih =>
      obtain ⟨piece, stamp⟩ := head
      rw [List.map_cons, List.flatten_cons, ← List.append_assoc]
      dsimp only
      cases ended : (framer.drain position (left ++ piece)).error with
      | some error =>
          have failed : (framer.drain position (left ++ piece)).error ≠ none := by
            rw [ended]
            exact Option.some_ne_none error
          rw [drain_append_of_error _ _ _ failed, feed_cons_of_error ended]
          refine ⟨?_, ended.symm, fun settled => absurd settled failed⟩
          unfold Fed.frames
          rw [List.flatMap_singleton]
          exact map_fst_stamped _ stamp
      | none =>
          obtain ⟨frames, error, leftover⟩ := ih (drain_left_waits _ _ ended)
            (framer.drain position (left ++ piece)).reached
          rw [drain_append _ _ _ ended, feed_cons ended]
          refine ⟨?_, error, leftover⟩
          unfold Fed.frames at frames ⊢
          dsimp only
          rw [List.flatMap_cons, List.map_append, map_fst_stamped, frames]

/-- A frame has the stamp of the piece that brought its last item. -/
theorem feed_stamps {left : List Item} (waits : framer.next left = .wait) (position : Nat)
    (pieces : List (List Item × Stamp)) :
    ∀ frame ∈ (framer.feed position left pieces).frames,
      ∃ before piece after, pieces = before ++ (piece, frame.2) :: after ∧
        position + left.length + (before.map Prod.fst).flatten.length < frame.1.1 ∧
        frame.1.1 ≤ position + left.length + (before.map Prod.fst).flatten.length
          + piece.length := by
  induction pieces generalizing position left with
  | nil => exact nofun
  | cons head pieces ih =>
      obtain ⟨piece, stamp⟩ := head
      have here : ∀ frame ∈ (framer.drain position (left ++ piece)).frames,
          position + left.length < frame.1 ∧ frame.1 ≤ position + left.length + piece.length := by
        intro frame member
        have reached := drain_reached framer position (left ++ piece)
        rw [List.length_append] at reached
        have ends := (drain_ends framer position (left ++ piece)).2 frame member
        exact ⟨drain_ends_after waits position piece frame member, by omega⟩
      have stampedHere : ∀ frame ∈ (framer.drain position (left ++ piece)).frames.map
          (fun frame => (frame, stamp)), ∃ before chunk after,
            (piece, stamp) :: pieces = before ++ (chunk, frame.2) :: after ∧
            position + left.length + (before.map Prod.fst).flatten.length < frame.1.1 ∧
            frame.1.1 ≤ position + left.length + (before.map Prod.fst).flatten.length
              + chunk.length := by
        intro frame member
        obtain ⟨inner, isFrame, rfl⟩ := List.mem_map.mp member
        exact ⟨[], piece, pieces, rfl, here inner isFrame⟩
      cases ended : (framer.drain position (left ++ piece)).error with
      | some error =>
          rw [feed_cons_of_error ended]
          unfold Fed.frames
          rw [List.flatMap_singleton]
          exact stampedHere
      | none =>
          rw [feed_cons ended]
          intro frame member
          unfold Fed.frames at member
          rw [List.flatMap_cons] at member
          rcases List.mem_append.mp member with now | later
          · exact stampedHere frame now
          · obtain ⟨before, chunk, after, rfl, started, ended'⟩ :=
              ih (drain_left_waits _ _ ended) _ frame later
            have reached := drain_reached framer position (left ++ piece)
            rw [List.length_append] at reached
            refine ⟨(piece, stamp) :: before, chunk, after, rfl, ?_⟩
            rw [List.map_cons, List.flatten_cons, List.length_append]
            dsimp only
            exact ⟨by omega, by omega⟩

end Framer

end MarketBenchmark.Foundation.Framing
