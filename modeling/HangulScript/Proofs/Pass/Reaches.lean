import HangulScript.Conversion.Pass

/-!
# The places that a pass comes to

A pass reaches a place in a state after a list of visits. What holds at the start and is kept by every step holds wherever
the pass comes, so the laws of a run are inductions over `Reaches`.
-/

namespace HangulScript

open Text

variable {σ : Type}

/-! ## The text of a list of visits -/

/-- The text that the visits read. -/
def readBy (visits : List (Visit σ)) : List Char :=
  visits.flatMap (·.edit.consumed)

/-- The text that the visits write. -/
def writtenBy (visits : List (Visit σ)) : List Char :=
  visits.flatMap (·.edit.written)

@[simp] theorem readBy_nil : readBy ([] : List (Visit σ)) = [] := rfl

@[simp] theorem writtenBy_nil : writtenBy ([] : List (Visit σ)) = [] := rfl

@[simp] theorem readBy_cons (v : Visit σ) (vs : List (Visit σ)) :
    readBy (v :: vs) = v.edit.consumed ++ readBy vs := rfl

@[simp] theorem writtenBy_cons (v : Visit σ) (vs : List (Visit σ)) :
    writtenBy (v :: vs) = v.edit.written ++ writtenBy vs := rfl

@[simp] theorem readBy_append (vs ws : List (Visit σ)) : readBy (vs ++ ws) = readBy vs ++ readBy ws := by
  simp [readBy]

@[simp] theorem writtenBy_append (vs ws : List (Visit σ)) :
    writtenBy (vs ++ ws) = writtenBy vs ++ writtenBy ws := by
  simp [writtenBy]

theorem Trace.source_eq (trace : Trace σ) : trace.source = readBy trace.visits := rfl

theorem Trace.output_eq (trace : Trace σ) : trace.output = writtenBy trace.visits := rfl

/-! ## Places after a piece of text -/

theorem Text.Cursor.advance_append {place : Cursor} {piece rest : List Char} (h : place.rest = piece ++ rest) :
    place.advance piece.length = ⟨piece.getLast?.or place.before, rest⟩ := by
  simp [Cursor.advance, h]

theorem Text.Cursor.advance_advance (place : Cursor) (a b : List Char) {rest : List Char}
    (h : place.rest = a ++ b ++ rest) :
    (place.advance a.length).advance b.length = place.advance (a.length + b.length) := by
  have ha : place.rest = a ++ (b ++ rest) := by simpa using h
  have hb : (Cursor.mk (a.getLast?.or place.before) (b ++ rest)).rest = b ++ rest := rfl
  rw [← List.length_append, Cursor.advance_append h, Cursor.advance_append ha, Cursor.advance_append hb]
  simp only [List.getLast?_append, Option.or_assoc]

theorem Text.getLast?_cons_or (c : Char) (text : List Char) (before : Option Char) :
    (c :: text).getLast?.or before = text.getLast?.or (some c) := by
  cases text with
  | nil => rfl
  | cons d text => rw [List.getLast?_cons_cons, List.getLast?_cons, Option.some_or, Option.some_or]

theorem Text.getLast?_or_of_ne_nil {text : List Char} (h : text ≠ []) (before : Option Char) :
    text.getLast?.or before = text.getLast? := by
  obtain ⟨text, c, rfl⟩ := List.eq_nil_or_concat text |>.resolve_left h
  rw [List.concat_eq_append, List.getLast?_concat, Option.some_or]

/-- Of two cuts of a text the first comes no later, or it comes later. -/
theorem Text.append_cases {a b c d : List Char} (h : a ++ b = c ++ d) :
    (∃ more, c = a ++ more ∧ b = more ++ d) ∨ ∃ more, more ≠ [] ∧ a = c ++ more ∧ d = more ++ b := by
  rcases List.append_eq_append_iff.1 h with hlater | ⟨more, hmore, hrest⟩
  · exact Or.inl hlater
  · by_cases hnil : more = []
    · exact Or.inl ⟨[], by simp [hmore, hnil], by simp [hrest, hnil]⟩
    · exact Or.inr ⟨more, hnil, hmore, hrest⟩

/-- The state in which a run goes on with the visits `later`, or the one in which it ends. -/
def Trace.stateAt (trace : Trace σ) (later : List (Visit σ)) : σ :=
  (later.head?.map (·.state)).getD trace.final

namespace Pass

/-! ## Reaching a place -/

/-- The pass comes to a place of the text in a state after the visits `done`. -/
inductive Reaches (pass : Pass σ) (text : List Char) : List (Visit σ) → σ → Cursor → Prop
  | start : Reaches pass text [] pass.start (Cursor.start text)
  | step {done : List (Visit σ)} {state : σ} {place : Cursor} (h : Reaches pass text done state place)
      (hrest : place.rest ≠ []) :
      Reaches pass text
        (done ++ [⟨byteLength (readBy done), place, state, (pass.step state place).1⟩])
        (pass.step state place).2 (place.advance (pass.step state place).1.consumed.length)

variable {pass : Pass σ} {text : List Char} {done : List (Visit σ)} {state : σ} {place : Cursor}

theorem Reaches.text_eq (h : Reaches pass text done state place) : text = readBy done ++ place.rest := by
  induction h with
  | start => rfl
  | @step done state place _ _ ih =>
      obtain ⟨after, hafter⟩ := pass.consumed_prefix state place
      have hdrop : place.rest.drop (pass.step state place).1.consumed.length = after := by
        simp [← hafter]
      simp only [readBy_append, readBy_cons, readBy_nil, List.append_nil, Cursor.advance_rest, hdrop,
        List.append_assoc, hafter]
      exact ih

theorem Reaches.before_eq (h : Reaches pass text done state place) : place.before = (readBy done).getLast? := by
  induction h with
  | start => rfl
  | @step done state place _ _ ih =>
      obtain ⟨after, hafter⟩ := pass.consumed_prefix state place
      rw [Cursor.advance_append hafter.symm]
      simp [ih, List.getLast?_append]

theorem Reaches.atOffset (h : Reaches pass text done state place) :
    Cursor.atOffset? text (byteLength (readBy done)) = some place :=
  Cursor.atOffset?_eq_some_iff.2 ⟨readBy done, h.text_eq, rfl, h.before_eq⟩

/-- The run goes through every place that is reached. -/
theorem Reaches.run_eq (h : Reaches pass text done state place) :
    pass.run text =
      let tail := pass.runFrom (byteLength (readBy done)) state place
      ⟨done ++ tail.visits, tail.final⟩ := by
  induction h with
  | start => rfl
  | step _ hrest ih =>
      rw [ih, pass.runFrom_of_ne_nil hrest]
      simp

theorem Reaches.run_eq_of_nil (h : Reaches pass text done state place) (hrest : place.rest = []) :
    pass.run text = ⟨done, state⟩ := by
  rw [h.run_eq, pass.runFrom_nil hrest]
  simp

/-- From any place that is reached, the visits of the run are reached one after the other. -/
theorem Reaches.to_end (h : Reaches pass text done state place) :
    ∃ stop, stop.rest = [] ∧
      Reaches pass text (done ++ (pass.runFrom (byteLength (readBy done)) state place).visits)
        (pass.runFrom (byteLength (readBy done)) state place).final stop := by
  induction hn : place.rest.length using Nat.strongRecOn generalizing done state place with
  | ind n ih =>
      by_cases hrest : place.rest = []
      · refine ⟨place, hrest, ?_⟩
        rw [pass.runFrom_nil hrest]
        simpa using h
      · have hlt := pass.length_advance_lt state hrest
        obtain ⟨stop, hstop, hreach⟩ := ih _ (hn ▸ hlt) (h.step hrest) rfl
        refine ⟨stop, hstop, ?_⟩
        rw [pass.runFrom_of_ne_nil hrest]
        simpa using hreach

theorem run_reaches (pass : Pass σ) (text : List Char) :
    ∃ stop, stop.rest = [] ∧ Reaches pass text (pass.run text).visits (pass.run text).final stop := by
  simpa [run] using Reaches.to_end (.start : Reaches pass text [] pass.start (Cursor.start text))

theorem output_runFrom (pass : Pass σ) {offset : Nat} {state : σ} {place : Cursor} (hrest : place.rest ≠ []) :
    (pass.runFrom offset state place).output =
      (pass.step state place).1.written ++
        (pass.runFrom (offset + byteLength (pass.step state place).1.consumed) (pass.step state place).2
          (place.advance (pass.step state place).1.consumed.length)).output := by
  rw [pass.runFrom_of_ne_nil hrest]
  rfl

theorem Reaches.of_mem (h : Reaches pass text done state place) {v : Visit σ} (hv : v ∈ done) :
    ∃ earlier, Reaches pass text earlier v.state v.place ∧ v.place.rest ≠ [] ∧
      v.offset = byteLength (readBy earlier) ∧ v.edit = (pass.step v.state v.place).1 ∧
      ∃ later, done = earlier ++ v :: later := by
  induction h with
  | start => simp at hv
  | @step done state place h hrest ih =>
      rcases List.mem_append.1 hv with hv | hv
      · obtain ⟨earlier, hreach, hne, hoff, hedit, later, rfl⟩ := ih hv
        exact ⟨earlier, hreach, hne, hoff, hedit, _, List.append_assoc ..⟩
      · obtain rfl := List.mem_singleton.1 hv
        exact ⟨done, h, hrest, rfl, rfl, [], rfl⟩

/-- Every visit of a run was made at a place that the pass came to. -/
theorem of_mem_run {v : Visit σ} (hv : v ∈ (pass.run text).visits) :
    ∃ earlier, Reaches pass text earlier v.state v.place ∧ v.place.rest ≠ [] ∧
      v.offset = byteLength (readBy earlier) ∧ v.edit = (pass.step v.state v.place).1 ∧
      ∃ later, (pass.run text).visits = earlier ++ v :: later := by
  obtain ⟨_, _, hreach⟩ := pass.run_reaches text
  exact hreach.of_mem hv

/-- Every place before the end lies at the beginning of a visited piece or inside one. -/
theorem Reaches.exists_over (h : Reaches pass text done state place) {lead rest : List Char}
    (hread : readBy done = lead ++ rest) (hne : rest ≠ []) :
    ∃ earlier v a b, v ∈ done ∧ Reaches pass text earlier v.state v.place ∧ v.place.rest ≠ [] ∧
      v.offset = byteLength (readBy earlier) ∧ v.edit = (pass.step v.state v.place).1 ∧
      lead = readBy earlier ++ a ∧ v.edit.consumed = a ++ b ∧ b ≠ [] := by
  induction h generalizing rest with
  | start => exact absurd (List.append_eq_nil_iff.1 hread.symm).2 hne
  | @step done state place h hrest ih =>
      rw [readBy_append, readBy_cons, readBy_nil, List.append_nil] at hread
      -- a place at the end of what the earlier visits read is the one of the last visit
      rcases append_cases hread with ⟨a, rfl, hconsumed⟩ | ⟨b, hb, hdone, -⟩
      · exact ⟨done, _, a, rest, List.mem_append_right _ List.mem_cons_self, h, hrest, rfl, rfl, rfl, hconsumed, hne⟩
      · obtain ⟨earlier, v, c, d, hv, hover⟩ := ih hdone hb
        exact ⟨earlier, v, c, d, List.mem_append_left _ hv, hover⟩

theorem exists_visit_over (pass : Pass σ) {lead rest : List Char} (htext : text = lead ++ rest) (hne : rest ≠ []) :
    ∃ earlier v a b, v ∈ (pass.run text).visits ∧ Reaches pass text earlier v.state v.place ∧ v.place.rest ≠ [] ∧
      v.offset = byteLength (readBy earlier) ∧ v.edit = (pass.step v.state v.place).1 ∧
      lead = readBy earlier ++ a ∧ v.edit.consumed = a ++ b ∧ b ≠ [] := by
  obtain ⟨_, _, hend⟩ := pass.run_reaches text
  exact hend.exists_over ((pass.source_run text).trans htext) hne

/-- Every character is read by some visit. -/
theorem exists_visit_reading (pass : Pass σ) {lead rest : List Char} {c : Char} (htext : text = lead ++ c :: rest) :
    ∃ earlier v a b, v ∈ (pass.run text).visits ∧ Reaches pass text earlier v.state v.place ∧
      v.offset = byteLength (readBy earlier) ∧ v.edit = (pass.step v.state v.place).1 ∧
      lead = readBy earlier ++ a ∧ v.edit.consumed = a ++ c :: b ∧ v.place.rest = a ++ c :: rest := by
  obtain ⟨earlier, v, a, b, hv, hreach, -, hoffset, hedit, hlead, hconsumed, hb⟩ :=
    pass.exists_visit_over htext (List.cons_ne_nil c rest)
  have hplace : v.place.rest = a ++ c :: rest := by
    have hcut := hreach.text_eq
    rw [htext, hlead, List.append_assoc] at hcut
    exact (List.append_cancel_left hcut).symm
  obtain ⟨after, hafter⟩ := pass.consumed_prefix v.state v.place
  obtain ⟨d, b, rfl⟩ := List.exists_cons_of_ne_nil hb
  rw [← hedit, hconsumed, hplace, List.append_assoc] at hafter
  have hsame : d = c := (List.cons.inj (List.append_cancel_left hafter)).1
  exact ⟨earlier, v, a, b, hv, hreach, hoffset, hedit, hlead, hsame ▸ hconsumed, hplace⟩

theorem Reaches.ascending (h : Reaches pass text done state place) :
    done.Pairwise fun v w => v.offset + byteLength v.edit.consumed ≤ w.offset := by
  induction h with
  | start => exact .nil
  | @step done state place h hrest ih =>
      refine List.pairwise_append.2 ⟨ih, List.pairwise_singleton _ _, fun u hu w hw => ?_⟩
      obtain rfl := List.mem_singleton.1 hw
      obtain ⟨earlier, _, _, hoffset, _, later, rfl⟩ := h.of_mem hu
      simp only [readBy_append, readBy_cons, byteLength_append, hoffset]
      omega

theorem le_offset_of_mem_runFrom (pass : Pass σ) {offset : Nat} {state : σ} {place : Cursor} {v : Visit σ}
    (hv : v ∈ (pass.runFrom offset state place).visits) : offset ≤ v.offset := by
  induction hn : place.rest.length using Nat.strongRecOn generalizing offset state place with
  | ind n ih =>
      by_cases hrest : place.rest = []
      · rw [pass.runFrom_nil hrest] at hv
        cases hv
      · have hlt := pass.length_advance_lt state hrest
        rw [pass.runFrom_of_ne_nil hrest] at hv
        rcases List.mem_cons.1 hv with rfl | hv
        · exact Nat.le_refl _
        · exact Nat.le_trans (Nat.le_add_right ..) (ih _ (hn ▸ hlt) hv rfl)

/-- Before each of its visits a run has reached a place, in the state in which that visit was made. -/
theorem Reaches.of_append (h : pass.Reaches text done state place) {earlier later : List (Visit σ)}
    (hdone : done = earlier ++ later) :
    ∃ before, pass.Reaches text earlier ((Trace.mk done state).stateAt later) before ∧
      before.rest = readBy later ++ place.rest := by
  induction h generalizing later with
  | start =>
      obtain ⟨rfl, rfl⟩ := List.append_eq_nil_iff.1 hdone.symm
      exact ⟨_, .start, rfl⟩
  | @step done state place h hrest ih =>
      rcases List.eq_nil_or_concat later with rfl | ⟨later, v, rfl⟩
      · rw [List.append_nil] at hdone
        exact ⟨_, hdone ▸ h.step hrest, rfl⟩
      · rw [List.concat_eq_append, ← List.append_assoc] at hdone
        obtain ⟨rfl, hv⟩ := List.append_inj' hdone rfl
        obtain rfl := (List.cons.inj hv).1
        obtain ⟨before, hreach, hbefore⟩ := ih rfl
        obtain ⟨after, hafter⟩ := pass.consumed_prefix state place
        refine ⟨before, ?_, ?_⟩
        · cases later <;> exact hreach
        · rw [hbefore, Cursor.advance_append hafter.symm, ← hafter]
          simp

theorem Reaches.of_concat {v : Visit σ} (h : pass.Reaches text (done ++ [v]) state place) :
    pass.Reaches text done v.state v.place ∧ v.place.rest ≠ [] ∧ v.edit = (pass.step v.state v.place).1 ∧
      state = (pass.step v.state v.place).2 := by
  obtain ⟨all, hall⟩ : ∃ all, all = done ++ [v] := ⟨_, rfl⟩
  rw [← hall] at h
  cases h with
  | start => exact absurd hall.symm (List.append_ne_nil_of_right_ne_nil _ (List.cons_ne_nil _ _))
  | step h hrest =>
      obtain ⟨rfl, hv⟩ := List.append_inj' hall rfl
      obtain rfl := (List.cons.inj hv).1
      exact ⟨h, hrest, rfl, rfl⟩

end Pass

end HangulScript
