import HangulScript.Diagnostic.Basic
import Mathlib.Tactic.SplitIfs

/-!
# Lines of a text

How many lines a text has and how many end in a part of it. A diagnostic names one of the lines of its text, the one after
those that end before the place.
-/

namespace HangulScript

open Text

/-! ## Line ends -/

/-- The characters that end a line. -/
def isLineEnd (c : Char) : Bool :=
  ['\n', '\r', '\u2028', '\u2029'].contains c

def lineEnds (text : List Char) : List Char :=
  text.filter isLineEnd

@[simp] theorem lineEnds_append (a b : List Char) : lineEnds (a ++ b) = lineEnds a ++ lineEnds b :=
  List.filter_append a b

theorem ne_newline_and_return {c : Char} (hc : isLineEnd c = false) : c ≠ '\n' ∧ c ≠ '\r' := by
  constructor <;>
    · rintro rfl
      cases hc

theorem lineEnds_eq_nil_iff {text : List Char} : lineEnds text = [] ↔ ∀ c ∈ text, isLineEnd c = false := by
  simp [lineEnds, List.filter_eq_nil_iff]

theorem count_lineEnds {c : Char} (hc : isLineEnd c = true) (text : List Char) : (lineEnds text).count c = text.count c :=
  List.count_filter hc

/-! ## The number of lines -/

theorem length_lines_newline (text : List Char) : (lines ('\n' :: text)).length = 1 + (lines text).length := by
  rw [lines.eq_def]
  simp [Nat.add_comm]

theorem length_lines_return (text : List Char) :
    (lines ('\r' :: text)).length =
      if text.head? = some '\n' then (lines text).length else 1 + (lines text).length := by
  cases text with
  | nil => rfl
  | cons c text =>
      by_cases hc : c = '\n'
      · subst hc
        rw [List.head?_cons, if_pos rfl, length_lines_newline, lines.eq_def]
        simp [Nat.add_comm]
      · rw [lines.eq_def]
        simp [hc, Nat.add_comm]

theorem length_lines_other {c : Char} (hnewline : c ≠ '\n') (hreturn : c ≠ '\r') (text : List Char) :
    (lines (c :: text)).length = max 1 (lines text).length := by
  rw [lines.eq_def]
  cases hlines : lines text with
  | nil => simp [hnewline, hreturn, hlines]
  | cons line others => simp [hnewline, hreturn, hlines]

/-- The text `a` comes from `b` without a new line: this is kept when a text is put before both. -/
structure NoLonger (a b : List Char) : Prop where
  length_le : (lines a).length ≤ (lines b).length
  head : b.head? = some '\n' → a.head? = some '\n'

theorem NoLonger.refl (text : List Char) : NoLonger text text :=
  ⟨Nat.le_refl _, fun h => h⟩

theorem NoLonger.trans {a b c : List Char} (h : NoLonger a b) (h' : NoLonger b c) : NoLonger a c :=
  ⟨Nat.le_trans h.length_le h'.length_le, fun hc => h.head (h'.head hc)⟩

theorem NoLonger.append {a b : List Char} (h : NoLonger a b) (text : List Char) : NoLonger (text ++ a) (text ++ b) := by
  induction text with
  | nil => exact h
  | cons c text ih =>
      refine ⟨?_, fun h => h⟩
      have hle := ih.length_le
      rw [List.cons_append, List.cons_append]
      by_cases hnewline : c = '\n'
      · subst hnewline
        rw [length_lines_newline, length_lines_newline]
        omega
      by_cases hreturn : c = '\r'
      · subst hreturn
        rw [length_lines_return, length_lines_return]
        split_ifs with ha hb hb
        · exact hle
        · omega
        · exact absurd (ih.head hb) ha
        · omega
      · rw [length_lines_other hnewline hreturn, length_lines_other hnewline hreturn]
        omega

theorem length_lines_append_apart {word : List Char} (hword : ∀ c ∈ word, isLineEnd c = false) (hne : word ≠ [])
    (text : List Char) : (lines (word ++ text)).length = max 1 (lines text).length := by
  induction word with
  | nil => exact absurd rfl hne
  | cons c word ih =>
      obtain ⟨hnewline, hreturn⟩ := ne_newline_and_return (hword c List.mem_cons_self)
      rw [List.cons_append, length_lines_other hnewline hreturn]
      cases word with
      | nil => rfl
      | cons d word =>
          rw [ih (fun e he => hword e (List.mem_cons_of_mem c he)) (List.cons_ne_nil _ _)]
          omega

/-! ## Lines that end -/

/-- A line ends between the two parts of a text. -/
def EndsLine (lead rest : List Char) : Prop :=
  lead.getLast? = some '\n' ∨ lead.getLast? = some '\r' ∧ rest.head? ≠ some '\n'

instance (lead rest : List Char) : Decidable (EndsLine lead rest) :=
  inferInstanceAs (Decidable (_ ∨ _))

/-- How many lines end in a text: with `\r\n`, with `\n` or with a `\r` that stands alone. -/
def endedLines : List Char → Nat
  | [] => 0
  | c :: rest => (if EndsLine [c] rest then 1 else 0) + endedLines rest

theorem endedLines_newline (text : List Char) : endedLines ('\n' :: text) = 1 + endedLines text := by
  have hends : EndsLine ['\n'] text := Or.inl rfl
  rw [endedLines, if_pos hends]

theorem endedLines_return (text : List Char) :
    endedLines ('\r' :: text) = (if text.head? = some '\n' then 0 else 1) + endedLines text := by
  by_cases hpair : text.head? = some '\n' <;> simp [endedLines, EndsLine, hpair]

theorem endedLines_other {c : Char} (hnewline : c ≠ '\n') (hreturn : c ≠ '\r') (text : List Char) :
    endedLines (c :: text) = endedLines text := by
  have hends : ¬ EndsLine [c] text := by simp [EndsLine, hnewline, hreturn]
  rw [endedLines, if_neg hends, Nat.zero_add]

theorem endedLines_append_apart {word : List Char} (hword : ∀ c ∈ word, isLineEnd c = false) (text : List Char) :
    endedLines (word ++ text) = endedLines text := by
  induction word with
  | nil => rfl
  | cons c word ih =>
      obtain ⟨hnewline, hreturn⟩ := ne_newline_and_return (hword c List.mem_cons_self)
      rw [List.cons_append, endedLines_other hnewline hreturn, ih fun d hd => hword d (List.mem_cons_of_mem c hd)]

/-- As many lines end in both texts: this is kept when a text is put before both. -/
structure SameEnds (a b : List Char) : Prop where
  endedLines_eq : endedLines a = endedLines b
  head : a.head? = some '\n' ↔ b.head? = some '\n'

theorem SameEnds.refl (text : List Char) : SameEnds text text :=
  ⟨rfl, Iff.rfl⟩

theorem SameEnds.append {a b : List Char} (h : SameEnds a b) (text : List Char) : SameEnds (text ++ a) (text ++ b) := by
  induction text with
  | nil => exact h
  | cons c text ih =>
      refine ⟨?_, Iff.rfl⟩
      rw [List.cons_append, List.cons_append]
      by_cases hnewline : c = '\n'
      · rw [hnewline, endedLines_newline, endedLines_newline, ih.endedLines_eq]
      by_cases hreturn : c = '\r'
      · simp only [hreturn, endedLines_return, ih.endedLines_eq, ih.head]
      · rw [endedLines_other hnewline hreturn, endedLines_other hnewline hreturn, ih.endedLines_eq]

/-! ## Lines of diagnostics -/

theorem locateIn_line {number offset : Nat} {ls : List (List Char)} {position : Position}
    (h : locateIn number ls offset = some position) : number ≤ position.line ∧ position.line < number + ls.length := by
  induction ls generalizing number offset with
  | nil => cases h
  | cons line rest ih =>
      rw [locateIn] at h
      split_ifs at h
      · cases h
        simp
      · have := ih h
        simp only [List.length_cons]
        omega

theorem lines_ne_nil {text : List Char} (h : text ≠ []) : lines text ≠ [] := fun hlines => by
  have := flatten_lines text
  rw [hlines] at this
  exact h this.symm

theorem locateIn_of_lt {number offset : Nat} {line : List Char} {others : List (List Char)} {position : Position}
    (h : locateIn number (line :: others) offset = some position) (hlt : offset < byteLength line) :
    position.line = number := by
  rw [locateIn, if_pos (Or.inl hlt)] at h
  cases h
  rfl

theorem locateIn_after (line : List Char) {number : Nat} {p : List Char} {others : List (List Char)} {position : Position}
    (h : locateIn number (line :: others) (byteLength (line ++ p)) = some position) (hothers : others ≠ []) :
    locateIn (number + 1) others (byteLength p) = some position := by
  rw [byteLength_append] at h
  have hend : ¬ (byteLength line + byteLength p < byteLength line ∨ others = []) := by
    rintro (hlt | hnil)
    · omega
    · exact hothers hnil
  rw [locateIn, if_neg hend, Nat.add_sub_cancel_left] at h
  exact h

/-- A character more in the first line moves a place on, and leaves it in its line. -/
theorem locateIn_cons_cons {number offset : Nat} {c : Char} {line : List Char} {others : List (List Char)}
    {position : Position} (h : locateIn number ((c :: line) :: others) (c.utf8Size + offset) = some position) :
    ∃ position', locateIn number (line :: others) offset = some position' ∧ position'.line = position.line := by
  have hless : c.utf8Size + offset < byteLength (c :: line) ↔ offset < byteLength line := by
    rw [byteLength_cons]
    omega
  have hdrop : c.utf8Size + offset - byteLength (c :: line) = offset - byteLength line := by
    rw [byteLength_cons]
    omega
  simp only [locateIn, hless, hdrop] at h ⊢
  split_ifs at h ⊢
  · cases h
    exact ⟨_, rfl, rfl⟩
  · exact ⟨position, h, rfl⟩

/-- A place has as many lines before it as end before it. -/
theorem locateIn_line_eq {text p q : List Char} {number : Nat} {position : Position} (htext : text = p ++ q) (hq : q ≠ [])
    (h : locateIn number (lines text) (byteLength p) = some position) :
    position.line + endedLines q = number + endedLines text := by
  have hafter : ∀ {x}, x ++ q ≠ [] := fun {x} => List.append_ne_nil_of_right_ne_nil x hq
  fun_induction lines text generalizing p number position with
  | case1 => exact absurd htext.symm hafter
  | case2 rest ih =>
      rcases p with _ | ⟨c, _ | ⟨d, p⟩⟩
      · rw [locateIn_of_lt h (by decide), htext, List.nil_append]
      · obtain ⟨rfl, rfl⟩ : '\r' = c ∧ '\n' :: rest = q := by simpa using htext
        rw [locateIn_of_lt h (by decide), endedLines_return]
        simp
      · obtain ⟨rfl, rfl, rfl⟩ : '\r' = c ∧ '\n' = d ∧ rest = p ++ q := by simpa using htext
        have := ih rfl (locateIn_after ['\r', '\n'] h (lines_ne_nil hafter))
        rw [endedLines_return, List.head?_cons, if_pos rfl, endedLines_newline]
        omega
  | case3 c rest hpair hend ih =>
      cases p with
      | nil => rw [locateIn_of_lt h (by simp [c.utf8Size_pos]), htext, List.nil_append]
      | cons d p =>
          obtain ⟨rfl, rfl⟩ : c = d ∧ rest = p ++ q := by simpa using htext
          have := ih rfl (locateIn_after [c] h (lines_ne_nil hafter))
          rcases hend with rfl | rfl
          · rw [endedLines_newline]
            omega
          · have hhead : (p ++ q).head? ≠ some '\n' := fun hhead => by
              obtain ⟨rest, hrest⟩ := List.head?_eq_some_iff.1 hhead
              exact hpair rest rfl hrest
            rw [endedLines_return, if_neg hhead]
            omega
  | case4 c rest hpair hend hnil ih =>
      cases p with
      | nil => rw [locateIn_of_lt h (by simp [c.utf8Size_pos]), htext, List.nil_append]
      | cons d p =>
          obtain ⟨rfl, rfl⟩ : c = d ∧ rest = p ++ q := by simpa using htext
          exact absurd hnil (lines_ne_nil hafter)
  | case5 c rest hpair hend line others hlines ih =>
      cases p with
      | nil =>
          have := c.utf8Size_pos
          rw [locateIn_of_lt h (by simp; omega), htext, List.nil_append]
      | cons d p =>
          obtain ⟨rfl, rfl⟩ : c = d ∧ rest = p ++ q := by simpa using htext
          obtain ⟨position', hshort, hline⟩ := locateIn_cons_cons h
          obtain ⟨hnewline, hreturn⟩ := not_or.1 hend
          rw [← hlines] at hshort
          rw [← hline, ih rfl hshort, endedLines_other hnewline hreturn]

theorem exists_locate? {text : List Char} (htext : text ≠ []) (offset : Nat) :
    ∃ position, locate? text offset = some position :=
  Option.ne_none_iff_exists'.1 fun hnone => htext (locate?_eq_none_iff.1 hnone)

theorem locate?_line {p q : List Char} (hq : q ≠ []) : ∃ position, locate? (p ++ q) (byteLength p) = some position ∧
    position.line + endedLines q = 1 + endedLines (p ++ q) := by
  obtain ⟨position, hposition⟩ := exists_locate? (List.append_ne_nil_of_right_ne_nil p hq) (byteLength p)
  exact ⟨position, hposition, locateIn_line_eq rfl hq hposition⟩

theorem length_lines_dropMark (text : List Char) : (lines (Text.dropMark text)).length ≤ (lines text).length := by
  unfold Text.dropMark
  split
  · rw [length_lines_other (by decide) (by decide)]
    exact Nat.le_max_right ..
  · exact Nat.le_refl _

/-- A finding that has a place is reported in a line of the text. -/
theorem Diagnostic.line_le {text file : List Char} {finding : Finding} {diagnostic : Diagnostic}
    (h : Diagnostic.ofFinding text file finding = .ok diagnostic) :
    diagnostic.line ≤ (lines text).length ∧ (finding.offset.isSome = true → 1 ≤ diagnostic.line) := by
  unfold Diagnostic.ofFinding at h
  cases hoffset : finding.offset with
  | none =>
      simp only [hoffset] at h
      cases h
      exact ⟨Nat.zero_le _, nofun⟩
  | some offset =>
      cases hposition : locate? (Text.dropMark text) offset with
      | none =>
          simp only [hoffset, hposition] at h
          cases h
      | some position =>
          simp only [hoffset, hposition] at h
          cases h
          obtain ⟨hfirst, hlast⟩ := locateIn_line hposition
          have hmark := length_lines_dropMark text
          have hle : position.line ≤ (lines text).length := by omega
          exact ⟨hle, fun _ => hfirst⟩

theorem endedLines_dropMark (text : List Char) : endedLines (Text.dropMark text) = endedLines text := by
  unfold Text.dropMark
  split
  · rw [endedLines_other (by decide) (by decide)]
  · rfl

/-- A place that is counted from the mark on stands before the same text. -/
theorem exists_dropMark {text p q : List Char} {offset : Nat} (htext : text = p ++ q)
    (hoffset : byteLength p + byteLength (Text.dropMark text) = byteLength text + offset) :
    ∃ p', Text.dropMark text = p' ++ q ∧ byteLength p' = offset := by
  unfold Text.dropMark at hoffset ⊢
  split at hoffset
  · rw [byteLength_cons] at hoffset
    cases p with
    | nil =>
        have := Char.utf8Size_pos '\uFEFF'
        rw [byteLength_nil] at hoffset
        omega
    | cons c p =>
        obtain ⟨rfl, rfl⟩ : c = '\uFEFF' ∧ _ = p ++ q := by simpa [eq_comm] using htext
        rw [byteLength_cons] at hoffset
        exact ⟨p, rfl, by omega⟩
  · exact ⟨p, htext, by omega⟩

theorem Diagnostic.ofFinding_of_locate? {text file message : List Char} {offset : Nat} {position : Position}
    (h : locate? (Text.dropMark text) offset = some position) :
    ofFinding text file ⟨message, some offset⟩ =
      .ok ⟨file, position.line, position.column, message, renderAt file position message⟩ := by
  simp only [ofFinding, h]

/-- A finding before some of the text is reported in a line with as many lines before it as end before the place. -/
theorem Diagnostic.exists_line {text p q : List Char} (htext : Text.dropMark text = p ++ q) (hq : q ≠ [])
    (file message : List Char) :
    ∃ diagnostic, Diagnostic.ofFinding text file ⟨message, some (byteLength p)⟩ = .ok diagnostic ∧
      diagnostic.line + endedLines q = 1 + endedLines text := by
  obtain ⟨position, hposition, hline⟩ := locate?_line (p := p) hq
  rw [← htext] at hposition hline
  rw [endedLines_dropMark] at hline
  exact ⟨_, ofFinding_of_locate? hposition, hline⟩

end HangulScript
