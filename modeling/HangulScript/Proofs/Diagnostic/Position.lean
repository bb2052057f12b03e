import HangulScript.Proofs.Diagnostic.Lines
import HangulScript.Proofs.Pass.Reaches

/-!
# Positions in a text

The lines of a text begin at its start and after each terminator that more text follows. The line of an offset is the
last one that begins at or before it, and a later offset has no earlier position.
-/

namespace HangulScript

open Text

/-! ## Where lines begin -/

/-- A line begins at the byte offset: at the start of the text or where a line ends, if more text comes there. -/
def BeginsLine (text : List Char) (offset : Nat) : Prop :=
  ∃ lead rest, text = lead ++ rest ∧ byteLength lead = offset ∧ rest ≠ [] ∧ (lead = [] ∨ EndsLine lead rest)

/-- The byte offsets at which the given lines begin, the first of them at `base`. -/
def startsFrom : Nat → List (List Char) → List Nat
  | _, [] => []
  | base, line :: later => base :: startsFrom (base + byteLength line) later

/-- The byte offsets at which the lines of a text begin. -/
def lineStarts (text : List Char) : List Nat :=
  startsFrom 0 (lines text)

variable {text lead rest : List Char} {ls : List (List Char)} {number base n offset : Nat} {position : Position}

theorem not_endsLine_nil : ¬ EndsLine [] rest := by
  rintro (h | ⟨h, -⟩) <;> cases h

theorem endsLine_append {a : List Char} (hne : lead ≠ []) : EndsLine (a ++ lead) rest ↔ EndsLine lead rest := by
  obtain ⟨lead, c, rfl⟩ := List.eq_nil_or_concat lead |>.resolve_left hne
  rw [EndsLine, EndsLine, List.concat_eq_append, ← List.append_assoc, List.getLast?_concat, List.getLast?_concat]

/-- Where a line ends before the rest and nowhere inside of it, the other lines end where lines of the rest do. -/
theorem endsLine_line_iff {line : List Char} (hline : EndsLine line rest)
    (hinside : ∀ a b, line = a ++ b → b ≠ [] → ¬ EndsLine a (b ++ rest)) :
    (∃ lead more, line ++ rest = lead ++ more ∧ base + byteLength lead = n ∧ more ≠ [] ∧ EndsLine lead more) ↔
      ∃ lead more, rest = lead ++ more ∧ base + byteLength line + byteLength lead = n ∧ more ≠ [] ∧
        (lead = [] ∨ EndsLine lead more) := by
  constructor
  · rintro ⟨lead, more, htext, hlength, hne, hend⟩
    rcases append_cases htext with ⟨lead, rfl, hrest⟩ | ⟨b, hb, hcut, hmore⟩
    · rw [byteLength_append, ← Nat.add_assoc] at hlength
      refine ⟨lead, more, hrest, hlength, hne, ?_⟩
      by_cases hlead : lead = []
      · exact Or.inl hlead
      · exact Or.inr ((endsLine_append hlead).1 hend)
    · exact absurd (hmore ▸ hend) (hinside lead b hcut hb)
  · rintro ⟨lead, more, rfl, hlength, hne, hend⟩
    refine ⟨line ++ lead, more, (List.append_assoc ..).symm, ?_, hne, ?_⟩
    · rw [byteLength_append, ← Nat.add_assoc, hlength]
    · by_cases hlead : lead = []
      · rw [hlead, List.append_nil]
        rwa [hlead] at hline
      · exact (endsLine_append hlead).2 (hend.resolve_left hlead)

/-- After a character that is no terminator the lines end where lines of the rest do. -/
theorem endsLine_char_iff {c : Char} (hc : ¬ (c = '\n' ∨ c = '\r')) :
    (∃ lead more, c :: rest = lead ++ more ∧ base + byteLength lead = n ∧ more ≠ [] ∧ EndsLine lead more) ↔
      ∃ lead more, rest = lead ++ more ∧ base + c.utf8Size + byteLength lead = n ∧ more ≠ [] ∧ EndsLine lead more := by
  constructor
  · rintro ⟨lead, more, htext, hlength, hne, hends⟩
    rcases List.cons_eq_append_iff.1 htext with ⟨rfl, -⟩ | ⟨lead, rfl, hrest⟩
    · exact absurd hends not_endsLine_nil
    · have hlead : lead ≠ [] := by
        rintro rfl
        rcases hends with hlast | ⟨hlast, -⟩
        · exact hc (Or.inl (Option.some.inj hlast))
        · exact hc (Or.inr (Option.some.inj hlast))
      rw [byteLength_cons, ← Nat.add_assoc] at hlength
      exact ⟨lead, more, hrest, hlength, hne, (endsLine_append (a := [c]) hlead).1 hends⟩
  · rintro ⟨lead, more, rfl, hlength, hne, hends⟩
    have hlead : lead ≠ [] := by
      rintro rfl
      exact not_endsLine_nil hends
    refine ⟨c :: lead, more, rfl, ?_, hne, (endsLine_append (a := [c]) hlead).2 hends⟩
    rw [byteLength_cons, ← Nat.add_assoc, hlength]

/-- The first line begins at the start of the text, which the empty text does not have. -/
theorem mem_startsFrom_iff (htail : ∀ {base n}, n ∈ (startsFrom base (lines text)).tail ↔
      ∃ lead rest, text = lead ++ rest ∧ base + byteLength lead = n ∧ rest ≠ [] ∧ EndsLine lead rest) :
    n ∈ startsFrom base (lines text) ↔ ∃ lead rest, text = lead ++ rest ∧ base + byteLength lead = n ∧ rest ≠ [] ∧
      (lead = [] ∨ EndsLine lead rest) := by
  have hcons : n ∈ startsFrom base (lines text) ↔ text ≠ [] ∧ n = base ∨ n ∈ (startsFrom base (lines text)).tail := by
    by_cases htext : text = []
    · subst htext
      simp [lines, startsFrom]
    · obtain ⟨line, later, hlines⟩ := List.exists_cons_of_ne_nil (lines_ne_nil htext)
      simp [hlines, startsFrom, htext]
  rw [hcons, htail]
  constructor
  · rintro (⟨hne, rfl⟩ | ⟨lead, rest, htext, hlength, hne, hend⟩)
    · exact ⟨[], text, rfl, rfl, hne, Or.inl rfl⟩
    · exact ⟨lead, rest, htext, hlength, hne, Or.inr hend⟩
  · rintro ⟨lead, rest, rfl, rfl, hne, rfl | hend⟩
    · exact Or.inl ⟨hne, rfl⟩
    · exact Or.inr ⟨lead, rest, rfl, rfl, hne, hend⟩

/-- The lines after the first begin where a line ends. -/
theorem mem_tail_startsFrom_iff : n ∈ (startsFrom base (lines text)).tail ↔
    ∃ lead rest, text = lead ++ rest ∧ base + byteLength lead = n ∧ rest ≠ [] ∧ EndsLine lead rest := by
  fun_induction lines text generalizing base n with
  | case1 =>
      refine iff_of_false List.not_mem_nil ?_
      rintro ⟨lead, rest, hnil, -, hne, -⟩
      exact hne (List.append_eq_nil_iff.1 hnil.symm).2
  | case2 rest ih =>
      have hinside : ∀ a b, ['\r', '\n'] = a ++ b → b ≠ [] → ¬ EndsLine a (b ++ rest) := by
        rintro a b hcut hb
        rcases List.cons_eq_append_iff.1 hcut with ⟨rfl, -⟩ | ⟨a, rfl, hsecond⟩
        · exact not_endsLine_nil
        · -- between the two characters no line ends
          rcases List.cons_eq_append_iff.1 hsecond with ⟨rfl, rfl⟩ | ⟨a, rfl, hnil⟩
          · rintro (hlast | ⟨-, hhead⟩)
            · cases hlast
            · exact hhead rfl
          · exact absurd (List.append_eq_nil_iff.1 hnil.symm).2 hb
      have hline : EndsLine ['\r', '\n'] rest := Or.inl rfl
      exact (mem_startsFrom_iff ih).trans (endsLine_line_iff hline hinside).symm
  | case3 c rest hpair hend ih =>
      have hinside : ∀ a b, [c] = a ++ b → b ≠ [] → ¬ EndsLine a (b ++ rest) := by
        rintro a b hcut hb
        rcases List.cons_eq_append_iff.1 hcut with ⟨rfl, -⟩ | ⟨a, rfl, hnil⟩
        · exact not_endsLine_nil
        · exact absurd (List.append_eq_nil_iff.1 hnil.symm).2 hb
      have hline : EndsLine [c] rest := by
        rcases hend with rfl | rfl
        · exact Or.inl rfl
        · refine Or.inr ⟨rfl, fun hhead => ?_⟩
          obtain ⟨rest, rfl⟩ := List.head?_eq_some_iff.1 hhead
          exact hpair rest rfl rfl
      exact (mem_startsFrom_iff ih).trans (endsLine_line_iff hline hinside).symm
  | case4 c rest hpair hend hnil ih =>
      have hrest : rest = [] := Decidable.byContradiction fun hne => lines_ne_nil hne hnil
      refine iff_of_false List.not_mem_nil ?_
      rintro ⟨lead, more, htext, -, hne, hends⟩
      rw [hrest] at htext
      rcases List.cons_eq_append_iff.1 htext with ⟨rfl, -⟩ | ⟨lead, rfl, hempty⟩
      · exact not_endsLine_nil hends
      · exact hne (List.append_eq_nil_iff.1 hempty.symm).2
  | case5 c rest hpair hend line others hlines ih =>
      have htail := @ih (base + c.utf8Size) n
      rw [hlines] at htail
      simp only [startsFrom, List.tail_cons, byteLength_cons, ← Nat.add_assoc] at htail ⊢
      exact htail.trans (endsLine_char_iff hend).symm

theorem mem_lineStarts_iff : n ∈ lineStarts text ↔ BeginsLine text n := by
  rw [lineStarts, mem_startsFrom_iff mem_tail_startsFrom_iff]
  simp only [Nat.zero_add, BeginsLine]

theorem ne_nil_of_mem_lines {line : List Char} (h : line ∈ lines text) : line ≠ [] := by
  fun_induction lines text with
  | case1 => cases h
  | case2 rest ih =>
      rcases List.mem_cons.1 h with rfl | h
      · exact List.cons_ne_nil _ _
      · exact ih h
  | case3 c rest _ _ ih =>
      rcases List.mem_cons.1 h with rfl | h
      · exact List.cons_ne_nil _ _
      · exact ih h
  | case4 c =>
      obtain rfl := List.mem_singleton.1 h
      exact List.cons_ne_nil _ _
  | case5 c rest _ _ first others hlines ih =>
      rcases List.mem_cons.1 h with rfl | h
      · exact List.cons_ne_nil _ _
      · exact ih (hlines ▸ List.mem_cons_of_mem first h)

theorem le_of_mem_startsFrom (h : n ∈ startsFrom base ls) : base ≤ n := by
  induction ls generalizing base with
  | nil => cases h
  | cons line later ih =>
      rcases List.mem_cons.1 h with rfl | h
      · exact Nat.le_refl _
      · have := ih h
        omega

theorem startsFrom_ascending (hne : ∀ line ∈ ls, line ≠ []) : (startsFrom base ls).Pairwise (· < ·) := by
  induction ls generalizing base with
  | nil => exact .nil
  | cons line later ih =>
      refine .cons (fun n hn => ?_) (ih fun l hl => hne l (List.mem_cons_of_mem line hl))
      have hpos := List.length_pos_iff.2 (hne line List.mem_cons_self)
      have hlength := length_le_byteLength line
      have hle := le_of_mem_startsFrom hn
      omega

/-! ## The position of an offset -/

/-- The line of a position begins at or before the offset, the next one after it, and it is the line that is shown. -/
theorem locateIn_start (base : Nat) (h : locateIn number ls offset = some position) :
    ∃ k lead rest, position.line = number + k ∧ ls.flatten = lead ++ rest ∧
      (startsFrom base ls)[k]? = some (base + byteLength lead) ∧ byteLength lead ≤ offset ∧
      (∀ next, (startsFrom base ls)[k + 1]? = some next → base + offset < next) ∧
      position.sourceLine = shownLine rest ∧ 1 ≤ position.column := by
  induction ls generalizing number base offset with
  | nil => cases h
  | cons line later ih =>
      rw [locateIn] at h
      split_ifs at h with hhere
      · cases h
        refine ⟨0, [], (line :: later).flatten, rfl, rfl, rfl, Nat.zero_le _, fun next hnext => ?_, rfl,
          Nat.le_add_right ..⟩
        -- a next line begins after this one, in which the offset lies
        cases later with
        | nil => cases hnext
        | cons second later =>
            obtain rfl : base + byteLength line = next := by simpa [startsFrom] using hnext
            have := hhere.resolve_right (List.cons_ne_nil second later)
            omega
      · obtain ⟨hpast, -⟩ := not_or.1 hhere
        obtain ⟨k, lead, rest, hline, hflat, hstart, hle, hnext, hshown⟩ := ih (base + byteLength line) h
        refine ⟨k + 1, line ++ lead, rest, by omega, ?_, ?_, ?_, fun next h => ?_, hshown⟩
        · rw [List.flatten_cons, hflat, List.append_assoc]
        · rw [byteLength_append, ← Nat.add_assoc]
          exact hstart
        · rw [byteLength_append]
          omega
        · have := hnext next h
          omega

theorem columnsBefore_mono {offset offset' : Nat} (hle : offset ≤ offset') (line : List Char) :
    columnsBefore line offset ≤ columnsBefore line offset' := by
  induction line generalizing offset offset' with
  | nil => exact Nat.le_refl 0
  | cons c line ih =>
      have htail := ih (Nat.sub_le_sub_right hle c.utf8Size)
      rw [columnsBefore, columnsBefore]
      split_ifs <;> omega

/-- A later offset lies in a later line, or in the same one and not before. -/
theorem locateIn_mono {offset' : Nat} {position' : Position} (hle : offset ≤ offset')
    (h : locateIn number ls offset = some position) (h' : locateIn number ls offset' = some position') :
    position.line < position'.line ∨ position.line = position'.line ∧ position.column ≤ position'.column := by
  induction ls generalizing number offset offset' with
  | nil => cases h
  | cons line later ih =>
      rw [locateIn] at h h'
      split_ifs at h h' with hhere hhere' hhere'
      · cases h
        cases h'
        exact Or.inr ⟨rfl, Nat.add_le_add_left (columnsBefore_mono hle line) 1⟩
      · cases h
        have := (locateIn_line h').1
        exact Or.inl this
      · -- the later offset would lie in this line, and the earlier one past it
        obtain ⟨hpast, hlater⟩ := not_or.1 hhere
        have := hhere'.resolve_right hlater
        omega
      · exact ih (Nat.sub_le_sub_right hle _) h h'

/-! ## Diagnostics -/

namespace Diagnostic

/-- The diagnostic names a line of the text in which the offset lies, and shows that line. -/
structure PointsInto (diagnostic : Diagnostic) (text : List Char) (offset : Nat) : Prop where
  line_pos : 1 ≤ diagnostic.line
  line_le : diagnostic.line ≤ (lineStarts text).length
  column_pos : 1 ≤ diagnostic.column
  start : ∃ lead rest, text = lead ++ rest ∧ (lineStarts text)[diagnostic.line - 1]? = some (byteLength lead) ∧
    byteLength lead ≤ offset ∧
    diagnostic.rendered =
      renderAt diagnostic.file ⟨diagnostic.line, diagnostic.column, shownLine rest⟩ diagnostic.message
  next : ∀ start, (lineStarts text)[diagnostic.line]? = some start → offset < start

theorem pointsInto_of_locate? {file message : List Char} (h : locate? text offset = some position) :
    PointsInto ⟨file, position.line, position.column, message, renderAt file position message⟩ text offset := by
  obtain ⟨k, lead, rest, hline, hflat, hstart, hle, hnext, hshown, hcolumn⟩ := locateIn_start 0 h
  rw [flatten_lines] at hflat
  rw [Nat.zero_add] at hstart
  have hindex : position.line - 1 = k := by omega
  obtain ⟨hlt, -⟩ := List.getElem?_eq_some_iff.1 hstart
  constructor
  case line_pos => exact Nat.le.intro hline.symm
  case line_le =>
    change position.line ≤ (startsFrom 0 (lines text)).length
    omega
  case column_pos => exact hcolumn
  case start => exact ⟨lead, rest, hflat, hindex ▸ hstart, hle, by rw [← hshown]⟩
  case next =>
    intro start hstart
    rw [hline, Nat.add_comm] at hstart
    have := hnext start hstart
    omega

/-- In a text that is not empty every offset has a diagnostic, in the last line that begins at or before it, and a later
offset has no earlier position. -/
theorem points_in_order (hne : Text.dropMark text ≠ []) :
    (∀ n, n ∈ lineStarts (Text.dropMark text) ↔ BeginsLine (Text.dropMark text) n) ∧
    (lineStarts (Text.dropMark text)).Pairwise (· < ·) ∧
    ∀ file message offset, ∃ diagnostic, ofFinding text file ⟨message, some offset⟩ = .ok diagnostic ∧
      diagnostic.PointsInto (Text.dropMark text) offset ∧
      ∀ message' offset' diagnostic', offset ≤ offset' →
        ofFinding text file ⟨message', some offset'⟩ = .ok diagnostic' →
          diagnostic.line < diagnostic'.line ∨
            diagnostic.line = diagnostic'.line ∧ diagnostic.column ≤ diagnostic'.column := by
  have hlocate : ∀ offset, ∃ position, locate? (Text.dropMark text) offset = some position := exists_locate? hne
  refine ⟨fun n => mem_lineStarts_iff, startsFrom_ascending fun line => ne_nil_of_mem_lines,
    fun file message offset => ?_⟩
  obtain ⟨position, hposition⟩ := hlocate offset
  refine ⟨_, ofFinding_of_locate? hposition, pointsInto_of_locate? hposition,
    fun message' offset' diagnostic' hle h => ?_⟩
  obtain ⟨position', hposition'⟩ := hlocate offset'
  rw [ofFinding_of_locate? hposition'] at h
  cases h
  exact locateIn_mono hle hposition hposition'

/-- A byte-order mark, all three terminators, a tab, a wide character and one that is drawn onto its neighbour. -/
def mixedEnds : List Char :=
  "\uFEFFa\t한\r\n\re\u0301\n\n".toList

theorem points_in_order_mixedEnds : Text.dropMark mixedEnds ≠ [] ∧
    (∀ n, n ∈ lineStarts (Text.dropMark mixedEnds) ↔ BeginsLine (Text.dropMark mixedEnds) n) ∧
    (lineStarts (Text.dropMark mixedEnds)).Pairwise (· < ·) ∧
    ∀ file message offset, ∃ diagnostic, ofFinding mixedEnds file ⟨message, some offset⟩ = .ok diagnostic ∧
      diagnostic.PointsInto (Text.dropMark mixedEnds) offset ∧
      ∀ message' offset' diagnostic', offset ≤ offset' →
        ofFinding mixedEnds file ⟨message', some offset'⟩ = .ok diagnostic' →
          diagnostic.line < diagnostic'.line ∨
            diagnostic.line = diagnostic'.line ∧ diagnostic.column ≤ diagnostic'.column := by
  have hne : Text.dropMark mixedEnds ≠ [] := by decide
  exact ⟨hne, points_in_order hne⟩

/-- Between the two characters of a terminator the line is still the one that they end. -/
example : lineStarts (Text.dropMark mixedEnds) = [0, 7, 8, 12] ∧
    ([5, 6, 7, 8, 11, 12, 13].map fun offset =>
      (locate? (Text.dropMark mixedEnds) offset).map fun position => (position.line, position.column)) =
      [some (1, 8), some (1, 9), some (2, 1), some (3, 1), some (3, 2), some (4, 1), some (4, 2)] := by
  decide +kernel

end Diagnostic

end HangulScript
