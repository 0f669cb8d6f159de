import Mathlib

/-!
# Reading a stream

A stream is a list of items.  A piece occurs at an offset of the stream when it
is what the stream holds from there on.  A reader hands on pieces and restarts;
it is in step with the stream when every piece occurs where the last one ended,
and then what it hands on between two restarts is contiguous in the stream.
-/

namespace MarketBenchmark.Foundation.Streams

variable {Item : Type*} {stream : List Item}

/-- The piece is what the stream holds from the offset on. -/
def OccursAt (stream : List Item) (offset : Nat) (piece : List Item) : Prop :=
  piece <+: stream.drop offset

instance [DecidableEq Item] (offset : Nat) (piece : List Item) :
    Decidable (OccursAt stream offset piece) :=
  inferInstanceAs (Decidable (piece <+: stream.drop offset))

@[simp]
theorem occursAt_nil (offset : Nat) : OccursAt stream offset [] := List.nil_prefix

theorem OccursAt.isInfix {offset : Nat} {piece : List Item}
    (occurs : OccursAt stream offset piece) :
    piece <:+: stream :=
  (List.IsPrefix.isInfix occurs).trans (List.drop_suffix offset stream).isInfix

theorem occursAt_append {offset : Nat} {first second : List Item} :
    OccursAt stream offset (first ++ second) ↔
      OccursAt stream offset first ∧ OccursAt stream (offset + first.length) second := by
  unfold OccursAt
  constructor
  · rintro ⟨rest, split⟩
    rw [List.append_assoc] at split
    refine ⟨⟨second ++ rest, split⟩, rest, ?_⟩
    rw [← List.drop_drop, ← split, List.drop_left]
  · rintro ⟨⟨rest, split⟩, secondOccurs⟩
    rw [← List.drop_drop, ← split, List.drop_left] at secondOccurs
    rw [← split]
    exact (List.prefix_append_right_inj first).mpr secondOccurs

theorem occursAt_cons {offset : Nat} {item : Item} {rest : List Item} :
    OccursAt stream offset (item :: rest) ↔
      stream[offset]? = some item ∧ OccursAt stream (offset + 1) rest := by
  have split : item :: rest = [item] ++ rest := rfl
  rw [split, occursAt_append, List.length_singleton]
  refine and_congr_left fun _ => ?_
  unfold OccursAt
  rw [List.singleton_prefix_iff_head?_eq_some, List.head?_drop]

/-- A piece without its first items occurs that much later. -/
theorem OccursAt.drop {offset skip : Nat} {piece : List Item}
    (occurs : OccursAt stream offset piece) (within : skip ≤ piece.length) :
    OccursAt stream (offset + skip) (piece.drop skip) := by
  rw [← List.take_append_drop skip piece, occursAt_append] at occurs
  rw [List.length_take_of_le within] at occurs
  exact occurs.2

theorem OccursAt.eq_take {piece : List Item} (occurs : OccursAt stream 0 piece) :
    piece = stream.take piece.length :=
  List.prefix_iff_eq_take.mp occurs

theorem OccursAt.length_le {offset : Nat} {piece : List Item}
    (occurs : OccursAt stream offset piece) (nonempty : piece ≠ []) :
    offset + piece.length ≤ stream.length := by
  have short := List.IsPrefix.length_le occurs
  have positive := List.length_pos_iff.mpr nonempty
  rw [List.length_drop] at short
  omega

/-- What a reader hands on: the next piece, or that it restarts elsewhere. -/
inductive Chunk (Item : Type*) where
  | piece (items : List Item)
  | restart

/--
The reader is in step with the stream from one position to another.  A reader
without a position joins the stream anywhere.
-/
inductive InStep (stream : List Item) :
    Option Nat → List (Chunk Item) → Option Nat → Prop
  | done {position : Option Nat} : InStep stream position [] position
  | join {chunks : List (Chunk Item)} {final : Option Nat} (offset : Nat)
      (rest : InStep stream (some offset) chunks final) : InStep stream none chunks final
  | piece {offset : Nat} {items : List Item} {chunks : List (Chunk Item)} {final : Option Nat}
      (occurs : OccursAt stream offset items)
      (rest : InStep stream (some (offset + items.length)) chunks final) :
      InStep stream (some offset) (.piece items :: chunks) final
  | restart {position resumed : Option Nat} {chunks : List (Chunk Item)} {final : Option Nat}
      (rest : InStep stream resumed chunks final) :
      InStep stream position (.restart :: chunks) final

theorem InStep.append {first second : List (Chunk Item)} {start middle final : Option Nat}
    (before : InStep stream start first middle) (after : InStep stream middle second final) :
    InStep stream start (first ++ second) final := by
  induction before with
  | done => exact after
  | join offset _ ih => exact .join offset (ih after)
  | piece occurs _ ih => exact .piece occurs (ih after)
  | restart _ ih => exact .restart (ih after)

/-- A reader that is in step with the whole is in step with what follows a first part. -/
theorem InStep.after {first second : List (Chunk Item)} {start final : Option Nat}
    (whole : InStep stream start (first ++ second) final) :
    ∃ middle, InStep stream middle second final := by
  induction first generalizing start with
  | nil => exact ⟨start, whole⟩
  | cons chunk rest ih =>
      rw [List.cons_append] at whole
      cases whole with
      | join offset whole =>
          cases whole with
          | piece _ whole => exact ih whole
          | restart whole => exact ih whole
      | piece _ whole => exact ih whole
      | restart whole => exact ih whole

/-- The items between two restarts. -/
theorem InStep.contiguous {pieces : List (List Item)} {chunks : List (Chunk Item)}
    {start final : Option Nat}
    (reading : InStep stream start (pieces.map .piece ++ chunks) final) :
    ∃ offset, (∀ position, start = some position → offset = position) ∧
      OccursAt stream offset pieces.flatten := by
  induction pieces generalizing start with
  | nil => exact ⟨start.getD 0, fun position same => by rw [same]; rfl, occursAt_nil _⟩
  | cons items pieces ih =>
      rw [List.map_cons, List.cons_append] at reading
      cases reading with
      | join offset reading =>
          cases reading with
          | piece occurs reading =>
              obtain ⟨next, same, occursRest⟩ := ih reading
              rw [same _ rfl] at occursRest
              exact ⟨offset, nofun, occursAt_append.mpr ⟨occurs, occursRest⟩⟩
      | piece occurs reading =>
          obtain ⟨next, same, occursRest⟩ := ih reading
          rw [same _ rfl] at occursRest
          exact ⟨_, fun position same => Option.some.inj same,
            occursAt_append.mpr ⟨occurs, occursRest⟩⟩

/-- The items of the pieces between one restart and the next, behind those of the first spell
so far. -/
def spells : List Item → List (Chunk Item) → List (List Item)
  | spell, [] => [spell]
  | spell, .piece items :: rest => spells (spell ++ items) rest
  | spell, .restart :: rest => spell :: spells [] rest

/-- What a consumer keeps of the pieces ends where the reader is. -/
def EndsAt (stream : List Item) (position : Option Nat) (kept : List Item) : Prop :=
  kept = [] ∨ ∃ offset, OccursAt stream offset kept ∧ position = some (offset + kept.length)

theorem EndsAt.isInfix {position : Option Nat} {kept : List Item}
    (ends : EndsAt stream position kept) : kept <:+: stream := by
  rcases ends with rfl | ⟨offset, occurs, _⟩
  · exact List.nil_infix
  · exact occurs.isInfix

theorem EndsAt.append {offset : Nat} {kept items : List Item}
    (ends : EndsAt stream (some offset) kept) (occurs : OccursAt stream offset items) :
    EndsAt stream (some (offset + items.length)) (kept ++ items) := by
  rcases ends with rfl | ⟨start, keptOccurs, same⟩
  · exact Or.inr ⟨offset, occurs, rfl⟩
  · cases same
    exact Or.inr ⟨start, occursAt_append.mpr ⟨keptOccurs, occurs⟩,
      by rw [List.length_append, Nat.add_assoc]⟩

theorem EndsAt.drop {position : Option Nat} {kept : List Item} (skip : Nat)
    (ends : EndsAt stream position kept) : EndsAt stream position (kept.drop skip) := by
  rcases Nat.lt_or_ge skip kept.length with within | beyond
  · rcases ends with rfl | ⟨offset, occurs, same⟩
    · exact absurd within (Nat.not_lt_zero _)
    · refine Or.inr ⟨offset + skip, occurs.drop within.le, ?_⟩
      rw [same, List.length_drop, Nat.add_assoc, Nat.add_sub_cancel' within.le]
  · exact Or.inl (List.drop_eq_nil_of_le beyond)

end MarketBenchmark.Foundation.Streams
