import HangulScript.Text.Cursor

/-!
# Passes over a text

A pass walks over a text once, from left to right. At each place it makes one edit: it keeps a
piece of the text, removes the piece after it and may insert another in its place. What it did is
recorded as a trace of visits. `Pass.source_run` says that the visited pieces are the whole text,
each read once and in order.
-/

namespace HangulScript

open Text

/-- One edit: `kept` is copied, then `removed` is dropped and `inserted` written in its place. -/
structure Edit where
  kept : List Char
  removed : List Char
  inserted : List Char
deriving DecidableEq, Repr

namespace Edit

/-- The edit that copies `text`. -/
def copy (text : List Char) : Edit :=
  ⟨text, [], []⟩

/-- The text that the edit reads. -/
def consumed (edit : Edit) : List Char :=
  edit.kept ++ edit.removed

/-- The text that the edit writes. -/
def written (edit : Edit) : List Char :=
  edit.kept ++ edit.inserted

/-- The edit is no mere copy. -/
def changes (edit : Edit) : Bool :=
  !edit.removed.isEmpty

@[simp] theorem consumed_copy (text : List Char) : (copy text).consumed = text := by
  simp [copy, consumed]

@[simp] theorem written_copy (text : List Char) : (copy text).written = text := by
  simp [copy, written]

@[simp] theorem changes_copy (text : List Char) : (copy text).changes = false := rfl

end Edit

/-- A pass with states `σ`. At a place before the end its edit reads some of the text there, so
every pass comes to the end. -/
structure Pass (σ : Type) where
  start : σ
  step : σ → Cursor → Edit × σ
  consumed_prefix : ∀ state place, (step state place).1.consumed <+: place.rest
  consumed_ne_nil : ∀ state place, place.rest ≠ [] → (step state place).1.consumed ≠ []

/-- A place that a pass came to, the state in which it came there and the edit it made. -/
structure Visit (σ : Type) where
  offset : Nat
  place : Cursor
  state : σ
  edit : Edit

/-- The offset of the removed text. -/
def Visit.removedAt {σ : Type} (visit : Visit σ) : Nat :=
  visit.offset + byteLength visit.edit.kept

/-- All visits of a pass, in order, and the state at the end of the text. -/
structure Trace (σ : Type) where
  visits : List (Visit σ)
  final : σ

namespace Trace

variable {σ : Type}

/-- The text that was read. -/
def source (trace : Trace σ) : List Char :=
  trace.visits.flatMap (·.edit.consumed)

/-- The text that was written. -/
def output (trace : Trace σ) : List Char :=
  trace.visits.flatMap (·.edit.written)

/-- The visits that changed the text. -/
def changes (trace : Trace σ) : List (Visit σ) :=
  trace.visits.filter (·.edit.changes)

end Trace

namespace Pass

variable {σ : Type}

/-- A step leaves less text to read. -/
theorem length_advance_lt (pass : Pass σ) (state : σ) {place : Cursor} (h : place.rest ≠ []) :
    (place.advance (pass.step state place).1.consumed.length).rest.length < place.rest.length := by
  have hread := List.length_pos_iff.2 (pass.consumed_ne_nil state place h)
  have htext := List.length_pos_iff.2 h
  simp only [Cursor.advance_rest, List.length_drop]
  omega

/-- The run of the pass from a place on. -/
def runFrom (pass : Pass σ) (offset : Nat) (state : σ) (place : Cursor) : Trace σ :=
  if _h : place.rest = [] then ⟨[], state⟩
  else
    let made := pass.step state place
    let tail := pass.runFrom (offset + byteLength made.1.consumed) made.2
      (place.advance made.1.consumed.length)
    ⟨⟨offset, place, state, made.1⟩ :: tail.visits, tail.final⟩
termination_by place.rest.length
decreasing_by exact pass.length_advance_lt state _h

/-- The run of the pass over a whole text. -/
def run (pass : Pass σ) (text : List Char) : Trace σ :=
  pass.runFrom 0 pass.start (Cursor.start text)

theorem runFrom_nil (pass : Pass σ) {offset : Nat} {state : σ} {place : Cursor}
    (h : place.rest = []) : pass.runFrom offset state place = ⟨[], state⟩ := by
  rw [runFrom]; simp [h]

theorem runFrom_of_ne_nil (pass : Pass σ) {offset : Nat} {state : σ} {place : Cursor}
    (h : place.rest ≠ []) :
    pass.runFrom offset state place =
      let edit := (pass.step state place).1
      let tail := pass.runFrom (offset + byteLength edit.consumed) (pass.step state place).2
        (place.advance edit.consumed.length)
      ⟨⟨offset, place, state, edit⟩ :: tail.visits, tail.final⟩ := by
  rw [runFrom]; simp [h]

/-- The visited pieces make up the text. -/
theorem source_runFrom (pass : Pass σ) (offset : Nat) (state : σ) (place : Cursor) :
    (pass.runFrom offset state place).source = place.rest := by
  induction hn : place.rest.length using Nat.strongRecOn generalizing offset state place with
  | ind n ih =>
    by_cases hrest : place.rest = []
    · simp [pass.runFrom_nil hrest, Trace.source, hrest]
    · rw [pass.runFrom_of_ne_nil hrest]
      obtain ⟨after, hafter⟩ := pass.consumed_prefix state place
      have hread := List.length_pos_iff.2 (pass.consumed_ne_nil state place hrest)
      have hlen := congrArg List.length hafter
      have hdrop : place.rest.drop (pass.step state place).1.consumed.length = after := by
        simp [← hafter]
      have htail := ih after.length (by simp at hlen; omega)
        (offset + byteLength (pass.step state place).1.consumed) (pass.step state place).2
        (place.advance (pass.step state place).1.consumed.length) (by simp [hdrop])
      simp only [Trace.source, Cursor.advance_rest, hdrop] at htail ⊢
      simp only [List.flatMap_cons, htail, hafter]

/-- A run reads the whole text. -/
theorem source_run (pass : Pass σ) (text : List Char) : (pass.run text).source = text :=
  pass.source_runFrom 0 pass.start (Cursor.start text)

end Pass

end HangulScript
