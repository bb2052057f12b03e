import HangulScript.Proofs.Diagnostic.Lines

/-!
# Positions after another text

The lines of a text stay the same after a text that ends with a newline. Every position in it only moves down by the lines
that come before.
-/

namespace HangulScript

open Text

/-- Nothing follows the last newline of the text. -/
def Finished (text : List Char) : Prop :=
  ∀ c, text.getLast? = some c → c = '\n'

variable {lead text : List Char} {c : Char} {ls later : List (List Char)} {number n offset : Nat}

theorem Finished.tail (h : Finished (c :: text)) : Finished text := by
  intro d hd
  refine h d ?_
  rw [List.getLast?_cons, hd]
  rfl

theorem Finished.ne_nil (h : Finished (c :: text)) (hc : c ≠ '\n') : text ≠ [] := by
  rintro rfl
  exact hc (h c rfl)

/-! ## The lines before -/

/-- After a newline the lines begin anew. -/
theorem lines_append (h : Finished lead) (text : List Char) : lines (lead ++ text) = lines lead ++ lines text := by
  fun_induction lines lead with
  | case1 => rfl
  | case2 rest ih =>
      rw [List.cons_append, List.cons_append, lines.eq_2, ih h.tail.tail]
      rfl
  | case3 c rest hpair hend ih =>
      have hapart : ∀ more, c = '\r' → rest ++ text = '\n' :: more → False := by
        rintro more rfl hmore
        obtain ⟨d, rest, rfl⟩ := List.exists_cons_of_ne_nil (h.ne_nil (by decide))
        obtain ⟨rfl, -⟩ := List.cons.inj hmore
        exact hpair rest rfl rfl
      rw [List.cons_append, lines.eq_3 _ _ hapart, if_pos hend, ih h.tail]
      rfl
  | case4 c rest hpair hend hnil ih =>
      have hrest := h.ne_nil fun hc => hend (Or.inl hc)
      exact absurd hnil (lines_ne_nil hrest)
  | case5 c rest hpair hend line others hlines ih =>
      have hapart : ∀ more, c = '\r' → rest ++ text = '\n' :: more → False := fun _ hc _ => hend (Or.inr hc)
      rw [List.cons_append, lines.eq_3 _ _ hapart, if_neg hend, ih h.tail, hlines]
      rfl

theorem length_lines_eq (h : Finished text) : (lines text).length = endedLines text := by
  induction text with
  | nil => rfl
  | cons c text ih =>
      have htail := ih h.tail
      by_cases hnewline : c = '\n'
      · rw [hnewline, length_lines_newline, endedLines_newline, htail]
      by_cases hreturn : c = '\r'
      · rw [hreturn, length_lines_return, endedLines_return, htail]
        split_ifs
        · rw [Nat.zero_add]
        · rfl
      · have hpos := List.length_pos_iff.2 (lines_ne_nil (h.ne_nil hnewline))
        rw [length_lines_other hnewline hreturn, endedLines_other hnewline hreturn]
        omega

/-! ## Positions -/

/-- A position so many lines further down. -/
def Position.down (position : Position) (n : Nat) : Position :=
  { position with line := n + position.line }

theorem locateIn_down : locateIn (n + number) ls offset = (locateIn number ls offset).map (·.down n) := by
  induction ls generalizing number offset with
  | nil => rfl
  | cons line later ih =>
      rw [locateIn, locateIn]
      split_ifs
      · rfl
      · rw [Nat.add_assoc]
        exact ih

/-- An offset past some of the lines is looked up in the others. -/
theorem locateIn_past (hlater : later ≠ []) : locateIn number (ls ++ later) (byteLength ls.flatten + offset) =
    locateIn (ls.length + number) later offset := by
  induction ls generalizing number with
  | nil => simp
  | cons line ls ih =>
      have hpast : ¬ (byteLength (line :: ls).flatten + offset < byteLength line ∨ ls ++ later = []) := by
        rintro (hlt | hnil)
        · rw [List.flatten_cons, byteLength_append] at hlt
          omega
        · exact hlater (List.append_eq_nil_iff.1 hnil).2
      rw [List.cons_append, locateIn, if_neg hpast, List.flatten_cons, byteLength_append, Nat.add_assoc,
        Nat.add_sub_cancel_left, ih, List.length_cons, Nat.add_assoc, Nat.add_comm number]

theorem locate?_append (h : Finished lead) (htext : text ≠ []) :
    locate? (lead ++ text) (byteLength lead + offset) = (locate? text offset).map (·.down (endedLines lead)) := by
  have hpast : locateIn 1 (lines lead ++ lines text) (byteLength (lines lead).flatten + offset) =
      locateIn ((lines lead).length + 1) (lines text) offset := locateIn_past (lines_ne_nil htext)
  rw [flatten_lines, length_lines_eq h] at hpast
  rw [locate?, lines_append h, hpast, locateIn_down]
  rfl

/-! ## Diagnostics -/

theorem dropMark_eq_self (h : text.head? ≠ some '\uFEFF') : Text.dropMark text = text := by
  unfold Text.dropMark
  split
  · exact absurd rfl h
  · rfl

namespace Diagnostic

/-- A text that ends with a newline only moves what is reported after it: the line number grows by the lines that end in
it, and the column, the message, the line that is shown and the place of the caret in it stay. -/
theorem moves_down {lead text : List Char} (hlead : lead.getLast? = some '\n') (htext : text ≠ [])
    (hmarkLead : lead.head? ≠ some '\uFEFF') (hmarkText : text.head? ≠ some '\uFEFF') :
    ∀ file message offset, ∃ position : Position,
      let moved : Position := ⟨endedLines lead + position.line, position.column, position.sourceLine⟩
      ofFinding text file ⟨message, some offset⟩ =
        .ok ⟨file, position.line, position.column, message, renderAt file position message⟩ ∧
      ofFinding (lead ++ text) file ⟨message, some (byteLength lead + offset)⟩ =
        .ok ⟨file, endedLines lead + position.line, position.column, message, renderAt file moved message⟩ := by
  intro file message offset
  have hfinished : Finished lead := fun c hc => Option.some.inj (hc.symm.trans hlead)
  have hhead : (lead ++ text).head? ≠ some '\uFEFF' := by
    obtain ⟨c, rest, rfl⟩ : ∃ c rest, lead = c :: rest :=
      List.exists_cons_of_ne_nil (by rintro rfl; cases hlead)
    exact hmarkLead
  obtain ⟨position, hposition⟩ := exists_locate? htext offset
  have hplace : locate? (Text.dropMark text) offset = some position := by
    rw [dropMark_eq_self hmarkText, hposition]
  have hmoved : locate? (Text.dropMark (lead ++ text)) (byteLength lead + offset) =
      some (position.down (endedLines lead)) := by
    rw [dropMark_eq_self hhead, locate?_append hfinished htext, hposition]
    rfl
  exact ⟨position, ofFinding_of_locate? hplace, ofFinding_of_locate? hmoved⟩

/-- Three lines of three kinds before a text whose first line holds a wide character. -/
theorem moves_down_mixedLines :
    let lead := "a\r\n\rb\n".toList
    let text := "한 = ;\n".toList
    let file := "a.ts".toList
    let message := "Expression expected".toList
    lead.getLast? = some '\n' ∧ text ≠ [] ∧ lead.head? ≠ some '\uFEFF' ∧ text.head? ≠ some '\uFEFF' ∧
      ∃ position : Position,
        ofFinding text file ⟨message, some 6⟩ =
          .ok ⟨file, position.line, position.column, message, renderAt file position message⟩ ∧
        ofFinding (lead ++ text) file ⟨message, some (byteLength lead + 6)⟩ =
          .ok ⟨file, 3 + position.line, position.column, message,
            renderAt file ⟨3 + position.line, position.column, position.sourceLine⟩ message⟩ := by
  intro lead text file message
  have hlead : lead.getLast? = some '\n' := by decide
  have htext : text ≠ [] := by decide
  have hmarkLead : lead.head? ≠ some '\uFEFF' := by decide
  have hmarkText : text.head? ≠ some '\uFEFF' := by decide
  have hlines : endedLines lead = 3 := by decide
  refine ⟨hlead, htext, hmarkLead, hmarkText, ?_⟩
  have h := moves_down hlead htext hmarkLead hmarkText file message 6
  rwa [hlines] at h

end Diagnostic

end HangulScript
