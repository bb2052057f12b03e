import HangulScript.Proofs.Diagnostic.Lines
import HangulScript.Proofs.Pass.Leads

/-!
# Lines through a pass

A pass that changes no line end keeps the lines apart: what it writes for the text before a newline does not depend on the
text after it, and no line is added.
-/

namespace HangulScript

open Text

/-! ## Edits -/

/-- What is removed and what is put in its place have no line ends, and nothing is put in the place of nothing. -/
structure Edit.KeepsLines (edit : Edit) : Prop where
  removed : ∀ c ∈ edit.removed, isLineEnd c = false
  inserted : ∀ c ∈ edit.inserted, isLineEnd c = false
  fills : edit.removed = [] → edit.inserted = []

theorem Edit.keepsLines_copy (text : List Char) : (Edit.copy text).KeepsLines :=
  ⟨nofun, nofun, fun _ => rfl⟩

theorem Edit.KeepsLines.lineEnds_written {edit : Edit} (h : edit.KeepsLines) :
    lineEnds edit.written = lineEnds edit.consumed := by
  have hremoved := lineEnds_eq_nil_iff.2 h.removed
  have hinserted := lineEnds_eq_nil_iff.2 h.inserted
  rw [Edit.written, Edit.consumed, lineEnds_append, lineEnds_append, hremoved, hinserted]

theorem Edit.KeepsLines.noLonger {edit : Edit} (hedit : edit.KeepsLines) {a b : List Char} (h : NoLonger a b) :
    NoLonger (edit.written ++ a) (edit.consumed ++ b) := by
  rw [Edit.written, Edit.consumed, List.append_assoc, List.append_assoc]
  refine .append ?_ edit.kept
  by_cases hnil : edit.removed = []
  · rw [hnil, hedit.fills hnil]
    exact h
  constructor
  case length_le =>
    have hle := h.length_le
    rw [length_lines_append_apart hedit.removed hnil]
    by_cases hinserted : edit.inserted = []
    · rw [hinserted, List.nil_append]
      omega
    · rw [length_lines_append_apart hedit.inserted hinserted]
      omega
  case head =>
    -- what is removed begins with no newline
    intro hhead
    obtain ⟨c, removed, hremoved⟩ := List.exists_cons_of_ne_nil hnil
    rw [hremoved] at hhead
    obtain rfl : c = '\n' := by simpa using hhead
    cases hedit.removed '\n' (by simp [hremoved])

/-- Where something is put in the place of what is removed, the same lines end before and after. -/
theorem Edit.KeepsLines.sameEnds {edit : Edit} (hedit : edit.KeepsLines) (hleaves : edit.inserted = [] → edit.removed = [])
    {a b : List Char} (h : SameEnds a b) : SameEnds (edit.written ++ a) (edit.consumed ++ b) := by
  rw [Edit.written, Edit.consumed, List.append_assoc, List.append_assoc]
  refine .append ?_ edit.kept
  by_cases hnil : edit.inserted = []
  · rw [hnil, hleaves hnil]
    exact h
  have hhead : ∀ {word text : List Char}, word ≠ [] → (∀ c ∈ word, isLineEnd c = false) →
      (word ++ text).head? ≠ some '\n' := by
    intro word text hword hplain
    obtain ⟨c, word, rfl⟩ := List.exists_cons_of_ne_nil hword
    exact fun hc => (ne_newline_and_return (hplain c List.mem_cons_self)).1 (Option.some.inj hc)
  constructor
  case endedLines_eq =>
    rw [endedLines_append_apart hedit.removed, endedLines_append_apart hedit.inserted, h.endedLines_eq]
  case head => exact iff_of_false (hhead hnil hedit.inserted) (hhead (mt hedit.fills hnil) hedit.removed)

namespace Pass

/-! ## Passes -/

variable {σ : Type}

/-- What a pass over lines does at a change, at a newline and before one. -/
structure KeepsLines (pass : Pass σ) : Prop where
  /-- No change spans a line end. -/
  edit : ∀ state place, place.rest ≠ [] → (pass.step state place).1.KeepsLines
  /-- A newline is copied, whatever comes after it. -/
  newline : ∀ state before, ∃ next, ∀ rest, pass.step state ⟨before, '\n' :: rest⟩ = (.copy ['\n'], next)
  /-- Before a newline the step is the one before the end of the text, or it takes the newline along in a copy. -/
  stop : ∀ state before text, text ≠ [] →
    (∀ rest, pass.step state ⟨before, text ++ '\n' :: rest⟩ = pass.step state ⟨before, text⟩) ∨
      (pass.step state ⟨before, text⟩).1 = .copy text ∧
        ∃ next, ∀ rest, pass.step state ⟨before, text ++ '\n' :: rest⟩ = (.copy (text ++ ['\n']), next)

variable {pass : Pass σ} {text : List Char} {done : List (Visit σ)} {state final : σ} {place : Cursor} {out : List Char}

theorem KeepsLines.of_mem_run (hpass : pass.KeepsLines) {v : Visit σ} (hv : v ∈ (pass.run text).visits) :
    v.edit.KeepsLines := by
  obtain ⟨_, _, hrest, _, hedit, _⟩ := Pass.of_mem_run hv
  exact hedit ▸ hpass.edit v.state v.place hrest

/-- The pass writes the line ends that it reads, in order. -/
theorem KeepsLines.lineEnds_writtenBy (hpass : pass.KeepsLines) {visits : List (Visit σ)}
    (hvisits : ∀ v ∈ visits, v ∈ (pass.run text).visits) : lineEnds (writtenBy visits) = lineEnds (readBy visits) := by
  induction visits with
  | nil => rfl
  | cons v visits ih =>
      have hv := (hpass.of_mem_run (hvisits v List.mem_cons_self)).lineEnds_written
      have htail := ih fun w hw => hvisits w (List.mem_cons_of_mem v hw)
      rw [writtenBy_cons, readBy_cons, lineEnds_append, lineEnds_append, hv, htail]

theorem KeepsLines.lineEnds_output (hpass : pass.KeepsLines) (text : List Char) :
    lineEnds (pass.run text).output = lineEnds text := by
  have hread : readBy (pass.run text).visits = text := pass.source_run text
  rw [Trace.output_eq, hpass.lineEnds_writtenBy fun v hv => hv, hread]

theorem Leads.noLonger (h : pass.Leads state place out final) (hpass : pass.KeepsLines) : NoLonger out place.rest := by
  induction h with
  | done hrest =>
      rw [hrest]
      exact .refl []
  | @step state final place out hrest h ih =>
      obtain ⟨rest, hread⟩ := Pass.consumed_prefix pass state place
      rw [Cursor.advance_append hread.symm] at ih
      rw [← hread]
      exact (hpass.edit state place hrest).noLonger ih

theorem KeepsLines.noLonger (hpass : pass.KeepsLines) (text : List Char) : NoLonger (pass.run text).output text :=
  (pass.leads_run text).noLonger hpass

/-- Where something is put in the place of all that is removed, the same lines end in what is read and in what is written. -/
theorem KeepsLines.sameEnds (hpass : pass.KeepsLines) {visits : List (Visit σ)}
    (hvisits : ∀ v ∈ visits, v ∈ (pass.run text).visits)
    (hleaves : ∀ v ∈ visits, v.edit.inserted = [] → v.edit.removed = []) : SameEnds (writtenBy visits) (readBy visits) := by
  induction visits with
  | nil => exact .refl []
  | cons v visits ih =>
      have htail := ih (fun w hw => hvisits w (List.mem_cons_of_mem v hw)) fun w hw => hleaves w (List.mem_cons_of_mem v hw)
      rw [writtenBy_cons, readBy_cons]
      exact (hpass.of_mem_run (hvisits v List.mem_cons_self)).sameEnds (hleaves v List.mem_cons_self) htail

/-- What the pass does with the text before a newline does not depend on the text after it. -/
theorem Leads.before_newline (h : pass.Leads state place out final) (hpass : pass.KeepsLines) :
    ∃ next, ∀ rest tail last, pass.Leads next ⟨some '\n', rest⟩ tail last →
      pass.Leads state ⟨place.before, place.rest ++ '\n' :: rest⟩ (out ++ '\n' :: tail) last := by
  induction h with
  | @done state place hrest =>
      obtain ⟨next, hnext⟩ := hpass.newline state place.before
      refine ⟨next, fun rest tail last htail => ?_⟩
      rw [hrest]
      exact .of_copy ['\n'] (hnext rest) (List.cons_ne_nil _ _) htail
  | @step state final place out hrest h ih =>
      rcases hpass.stop state place.before place.rest hrest with hsame | ⟨hcopy, next, hnext⟩
      · obtain ⟨next, ih⟩ := ih
        obtain ⟨after, hread⟩ := Pass.consumed_prefix pass state place
        rw [Cursor.advance_append hread.symm] at ih
        refine ⟨next, fun rest tail last htail => ?_⟩
        have hreadMore : place.rest ++ '\n' :: rest = (pass.step state place).1.consumed ++ (after ++ '\n' :: rest) := by
          rw [← hread, List.append_assoc]
        rw [List.append_assoc]
        exact .of_step (hsame rest) hreadMore (List.append_ne_nil_of_left_ne_nil hrest _) (ih rest tail last htail)
      · -- all that is left is copied, so the run over the text alone ends here
        have hend : (place.advance (pass.step state place).1.consumed.length).rest = [] := by
          rw [hcopy, Edit.consumed_copy, Cursor.advance_rest, List.drop_length]
        obtain ⟨rfl, -⟩ := h.unique (.done hend)
        refine ⟨next, fun rest tail last htail => ?_⟩
        have hstep : pass.step state ⟨place.before, place.rest ++ ['\n'] ++ rest⟩ =
            (.copy (place.rest ++ ['\n']), next) := by
          simpa using hnext rest
        have hlast : (place.rest ++ ['\n']).getLast?.or place.before = some '\n' := by simp
        have hline := Leads.of_copy (place.rest ++ ['\n']) hstep (by simp) (hlast ▸ htail)
        simpa [hcopy] using hline

/-- A newline cuts a text in two: what is written up to it is what is written for the text before it alone. -/
theorem KeepsLines.output_newline (hpass : pass.KeepsLines) (a b : List Char) :
    ∃ tail, (pass.run (a ++ '\n' :: b)).output = (pass.run a).output ++ '\n' :: tail ∧
      (pass.run (a ++ ['\n'])).output = (pass.run a).output ++ ['\n'] := by
  obtain ⟨next, hnext⟩ := (pass.leads_run a).before_newline hpass
  obtain ⟨hout, -⟩ := (hnext b _ _ (pass.leads_runFrom 0 next ⟨some '\n', b⟩)).unique (pass.leads_run (a ++ '\n' :: b))
  obtain ⟨hline, -⟩ := (hnext [] _ _ (.done rfl)).unique (pass.leads_run (a ++ ['\n']))
  exact ⟨_, hout.symm, hline.symm⟩

end Pass

end HangulScript
