import HangulScript.Proofs.Pass.Leads

/-!
# Runs over a piece of text

Where the steps over a piece of text do not see what comes after it, a run makes the edits over it that the run over the
piece by itself makes.
-/

namespace HangulScript

open Text

variable {σ : Type}

/-- The edits of a run, in order. -/
def Trace.edits (trace : Trace σ) : List Edit :=
  trace.visits.map (·.edit)

theorem writtenBy_eq (visits : List (Visit σ)) : writtenBy visits = (visits.map (·.edit)).flatMap Edit.written := by
  rw [writtenBy, List.flatMap_map]

theorem Trace.output_eq_edits (trace : Trace σ) : trace.output = trace.edits.flatMap Edit.written :=
  writtenBy_eq trace.visits

theorem Trace.changes_eq_edits (trace : Trace σ) : trace.changes.map (·.edit) = trace.edits.filter (·.changes) := by
  rw [edits, List.filter_map]
  rfl

namespace Pass

variable {pass : Pass σ} {text piece rest : List Char} {done : List (Visit σ)} {state : σ} {before : Option Char}

/-- The run over a piece of text by itself, from a state on. -/
def runIn (pass : Pass σ) (state : σ) (piece : List Char) : Trace σ :=
  pass.runFrom 0 state (Cursor.start piece)

theorem edits_runFrom_nil (pass : Pass σ) (offset : Nat) (state : σ) {place : Cursor} (hrest : place.rest = []) :
    (pass.runFrom offset state place).edits = [] ∧ (pass.runFrom offset state place).final = state := by
  rw [pass.runFrom_nil hrest]
  exact ⟨rfl, rfl⟩

theorem edits_runFrom (pass : Pass σ) (offset : Nat) (state : σ) {place : Cursor} (hrest : place.rest ≠ []) :
    let next := pass.runFrom (offset + byteLength (pass.step state place).1.consumed) (pass.step state place).2
      (place.advance (pass.step state place).1.consumed.length)
    (pass.runFrom offset state place).edits = (pass.step state place).1 :: next.edits ∧
      (pass.runFrom offset state place).final = next.final := by
  rw [pass.runFrom_of_ne_nil hrest]
  exact ⟨rfl, rfl⟩

/-- The offset at which a run begins changes nothing but offsets. -/
theorem edits_offset (pass : Pass σ) (offset offset' : Nat) (state : σ) (place : Cursor) :
    (pass.runFrom offset state place).edits = (pass.runFrom offset' state place).edits ∧
      (pass.runFrom offset state place).final = (pass.runFrom offset' state place).final := by
  induction hn : place.rest.length using Nat.strongRecOn generalizing offset offset' state place with
  | ind n ih =>
      by_cases hrest : place.rest = []
      · rw [pass.runFrom_nil hrest, pass.runFrom_nil hrest]
        exact ⟨rfl, rfl⟩
      · obtain ⟨hedits, hfinal⟩ := pass.edits_runFrom offset state hrest
        obtain ⟨hedits', hfinal'⟩ := pass.edits_runFrom offset' state hrest
        have hlt := pass.length_advance_lt state hrest
        obtain ⟨hsame, hend⟩ := ih _ (hn ▸ hlt) (offset + byteLength (pass.step state place).1.consumed)
          (offset' + byteLength (pass.step state place).1.consumed) (pass.step state place).2 _ rfl
        rw [hedits, hedits', hfinal, hfinal', hsame, hend]
        exact ⟨rfl, rfl⟩

/-- Outside of identifiers the text before the piece changes nothing. -/
theorem edits_runIn (hpass : pass.SeesFree) (hfree : before.any isNameChar = false) (offset : Nat) (state : σ)
    (piece : List Char) :
    (pass.runFrom offset state ⟨before, piece⟩).edits = (pass.runIn state piece).edits ∧
      (pass.runFrom offset state ⟨before, piece⟩).final = (pass.runIn state piece).final := by
  rw [runIn, Cursor.start]
  by_cases hpiece : piece = []
  · rw [pass.runFrom_nil hpiece, pass.runFrom_nil hpiece]
    exact ⟨rfl, rfl⟩
  · have hrest : (Cursor.mk before piece).rest ≠ [] := hpiece
    have hrest' : (Cursor.mk none piece).rest ≠ [] := hpiece
    have hstep : pass.step state ⟨before, piece⟩ = pass.step state ⟨none, piece⟩ := hpass state before none piece hfree
    obtain ⟨hedits, hfinal⟩ := pass.edits_runFrom offset state hrest
    obtain ⟨hedits', hfinal'⟩ := pass.edits_runFrom 0 state hrest'
    have hne := pass.consumed_ne_nil state ⟨none, piece⟩ hrest'
    obtain ⟨more, hmore⟩ := pass.consumed_prefix state ⟨none, piece⟩
    have hadvance : ∀ before, (Cursor.mk before piece).advance (pass.step state ⟨none, piece⟩).1.consumed.length = _ :=
      fun _ => Cursor.advance_append hmore.symm
    have hplace : (Cursor.mk before piece).advance (pass.step state ⟨none, piece⟩).1.consumed.length =
        (Cursor.mk none piece).advance (pass.step state ⟨none, piece⟩).1.consumed.length := by
      rw [hadvance before, hadvance none, getLast?_or_of_ne_nil hne, getLast?_or_of_ne_nil hne]
    rw [hstep, hplace] at hedits hfinal
    obtain ⟨hsame, hend⟩ := pass.edits_offset (offset + byteLength (pass.step state ⟨none, piece⟩).1.consumed)
      (0 + byteLength (pass.step state ⟨none, piece⟩).1.consumed) (pass.step state ⟨none, piece⟩).2
      ((Cursor.mk none piece).advance (pass.step state ⟨none, piece⟩).1.consumed.length)
    rw [hedits, hedits', hfinal, hfinal', hsame, hend]
    exact ⟨rfl, rfl⟩

/-- Over a piece of its text a run makes the edits of the run over the piece alone, if no step sees what comes after it. -/
theorem Reaches.over_piece {Inside : σ → List Char → Prop}
    (hinside : ∀ state before piece, Inside state piece → piece ≠ [] →
      pass.step state ⟨before, piece ++ rest⟩ = pass.step state ⟨before, piece⟩ ∧
        Inside (pass.step state ⟨before, piece⟩).2 (piece.drop (pass.step state ⟨before, piece⟩).1.consumed.length))
    (h : pass.Reaches text done state ⟨before, piece ++ rest⟩) (hpiece : Inside state piece) (offset : Nat) :
    ∃ visits, pass.Reaches text (done ++ visits) (pass.runFrom offset state ⟨before, piece⟩).final
        ⟨piece.getLast?.or before, rest⟩ ∧
      visits.map (·.edit) = (pass.runFrom offset state ⟨before, piece⟩).edits ∧
      Inside (pass.runFrom offset state ⟨before, piece⟩).final [] := by
  induction hn : piece.length using Nat.strongRecOn generalizing done state before piece offset with
  | ind n ih =>
      by_cases hnil : piece = []
      · subst hnil
        have hnil : (Cursor.mk before []).rest = [] := rfl
        obtain ⟨hedits, hfinal⟩ := pass.edits_runFrom_nil offset state hnil
        rw [hedits, hfinal]
        exact ⟨[], by simpa using h, rfl, hpiece⟩
      have hrest : (Cursor.mk before piece).rest ≠ [] := hnil
      obtain ⟨hedits, hfinal⟩ := pass.edits_runFrom offset state hrest
      obtain ⟨hstep, hnext⟩ := hinside state before piece hpiece hnil
      obtain ⟨more, hmore⟩ := pass.consumed_prefix state ⟨before, piece⟩
      have hne := pass.consumed_ne_nil state ⟨before, piece⟩ hrest
      have hreach := h.step (List.append_ne_nil_of_left_ne_nil hnil rest)
      rw [hstep] at hreach
      rw [hedits, hfinal]
      generalize pass.step state ⟨before, piece⟩ = made at *
      obtain rfl : made.1.consumed ++ more = piece := hmore
      rw [Cursor.advance_append (List.append_assoc ..)] at hreach
      rw [Cursor.advance_append rfl]
      rw [List.drop_left] at hnext
      have hlt := List.length_pos_iff.2 hne
      rw [List.length_append] at hn
      obtain ⟨visits, hlater, hsame, hend⟩ :=
        ih more.length (by omega) hreach hnext (offset + byteLength made.1.consumed) rfl
      refine ⟨⟨byteLength (readBy done), ⟨before, made.1.consumed ++ more ++ rest⟩, state, made.1⟩ :: visits, ?_,
        congrArg (made.1 :: ·) hsame, hend⟩
      rw [List.append_cons, List.getLast?_append, Option.or_assoc]
      exact hlater

theorem Reaches.over_piece_free (hpass : pass.SeesFree) {Inside : σ → List Char → Prop}
    (hinside : ∀ state before piece, Inside state piece → piece ≠ [] →
      pass.step state ⟨before, piece ++ rest⟩ = pass.step state ⟨before, piece⟩ ∧
        Inside (pass.step state ⟨before, piece⟩).2 (piece.drop (pass.step state ⟨before, piece⟩).1.consumed.length))
    (h : pass.Reaches text done state ⟨before, piece ++ rest⟩) (hpiece : Inside state piece)
    (hfree : before.any isNameChar = false) :
    ∃ visits, pass.Reaches text (done ++ visits) (pass.runIn state piece).final ⟨piece.getLast?.or before, rest⟩ ∧
      visits.map (·.edit) = (pass.runIn state piece).edits ∧ Inside (pass.runIn state piece).final [] := by
  obtain ⟨hedits, hfinal⟩ := edits_runIn hpass hfree 0 state piece
  obtain ⟨visits, hreach, hsame, hend⟩ := h.over_piece hinside hpiece 0
  rw [hfinal] at hreach hend
  exact ⟨visits, hreach, hsame.trans hedits, hend⟩

/-- The visits over a piece read it. -/
theorem Reaches.readBy_piece {later : List (Visit σ)} {next : σ} {before' : Option Char}
    (h : pass.Reaches text done state ⟨before, piece ++ rest⟩)
    (h' : pass.Reaches text (done ++ later) next ⟨before', rest⟩) : readBy later = piece := by
  have htext := h.text_eq.symm.trans h'.text_eq
  rw [readBy_append, List.append_assoc] at htext
  exact (List.append_cancel_right (List.append_cancel_left htext)).symm

/-- What is left of a run is the visits up to a later state and what is left after them. -/
theorem Reaches.edits_append {later : List (Visit σ)} {state' : σ} {place place' : Cursor}
    (h : pass.Reaches text done state place) (h' : pass.Reaches text (done ++ later) state' place') :
    (pass.runFrom (byteLength (readBy done)) state place).edits =
      later.map (·.edit) ++ (pass.runFrom (byteLength (readBy (done ++ later))) state' place').edits := by
  have hvisits : done ++ _ = done ++ later ++ _ := congrArg Trace.visits (h.run_eq.symm.trans h'.run_eq)
  rw [List.append_assoc] at hvisits
  exact (congrArg (List.map (·.edit)) (List.append_cancel_left hvisits)).trans List.map_append

end Pass

end HangulScript
