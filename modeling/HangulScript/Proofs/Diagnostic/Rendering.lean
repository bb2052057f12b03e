import Mathlib.Algebra.GroupWithZero.Nat
import Mathlib.Data.List.TakeWhile
import HangulScript.Proofs.Diagnostic.Position
import HangulScript.Proofs.Text.Cuts

/-!
# Renderings of diagnostics

A rendering has four rows: the header, an empty row, the line of the place and a caret below it. The caret stands as many
columns to the right as the characters before the place take one by one, which is where a terminal shows the place unless it
draws some of these characters as one.
-/

namespace HangulScript

open Text

variable {text lead rest before more line : List Char} {ls : List (List Char)} {number base offset : Nat}
  {position : Position}

/-! ## Columns -/

/-- The text is as wide as its characters are one by one. An emoji with the selector U+FE0F after it is not. -/
def WidthAddsUp (width : List Char → Nat) (text : List Char) : Prop :=
  width text = (text.map displayWidth).sum

/-- The character belongs to the basic plane and is no control character. -/
def IsBasic (c : Char) : Prop :=
  c.toNat < 0x10000 ∧ ¬ (c.toNat < 0x20 ∨ 0x7F ≤ c.toNat ∧ c.toNat < 0xA0)

instance (c : Char) : Decidable (IsBasic c) :=
  inferInstanceAs (Decidable (_ ∧ _))

theorem columnWeight_of_isBasic {c : Char} (h : IsBasic c) : columnWeight c = displayWidth c := by
  obtain ⟨hplane, hcontrol⟩ := h
  have hne : ∀ d : Char, d.toNat < 0x20 → c ≠ d := by
    rintro d hd rfl
    exact hcontrol (Or.inl hd)
  have hends : ¬ (c = '\n' ∨ c = '\r') := not_or.2 ⟨hne '\n' (by decide), hne '\r' (by decide)⟩
  rw [columnWeight, if_neg (hne '\t' (by decide)), if_neg hends, if_neg hcontrol, if_neg (Nat.not_le.2 hplane), Nat.add_zero]

theorem sum_columnWeight (h : ∀ c ∈ text, IsBasic c) : (text.map columnWeight).sum = (text.map displayWidth).sum := by
  rw [List.map_congr_left fun c hc => columnWeight_of_isBasic (h c hc)]

theorem columnsBefore_append (before more : List Char) :
    columnsBefore (before ++ more) (byteLength before) = (before.map columnWeight).sum := by
  induction before with
  | nil => cases more <;> rfl
  | cons c before ih =>
      have hpos := c.utf8Size_pos
      rw [List.cons_append, columnsBefore, byteLength_cons, if_neg (by omega), Nat.add_sub_cancel_left, ih, List.map_cons,
        List.sum_cons]

/-- A text that begins where a line does and has its bytes before an offset of that line is a beginning of the line. -/
theorem exists_line_append {later : List (List Char)} (htext : line ++ later.flatten = before ++ more)
    (h : byteLength before < byteLength line ∨ later = []) : ∃ others, line = before ++ others := by
  rcases h with hlt | rfl
  · exact exists_append_of_byteLength_le htext (Nat.le_of_lt hlt)
  · exact ⟨more, by simpa using htext⟩

/-- The column of a position counts the characters between the start of its line and the offset. -/
theorem locateIn_column (h : locateIn number ls offset = some position) (htext : ls.flatten = lead ++ (before ++ more))
    (hstart : (startsFrom base ls)[position.line - number]? = some (base + byteLength lead))
    (hoffset : byteLength lead + byteLength before = offset) : position.column = 1 + (before.map columnWeight).sum := by
  induction ls generalizing number base offset lead with
  | nil => cases h
  | cons line later ih =>
      have hrange := locateIn_line h
      rw [locateIn] at h
      split_ifs at h with hhere
      · cases h
        have hlead : byteLength lead = 0 := by
          simpa [startsFrom] using hstart
        obtain rfl : lead = [] := List.eq_nil_of_length_eq_zero (by have := length_le_byteLength lead; omega)
        rw [byteLength_nil, Nat.zero_add] at hoffset
        subst hoffset
        rw [List.flatten_cons, List.nil_append] at htext
        obtain ⟨others, rfl⟩ := exists_line_append htext hhere
        exact congrArg (1 + ·) (columnsBefore_append before others)
      · obtain ⟨hlt, -⟩ := not_or.1 hhere
        have hlater := (locateIn_line h).1
        have hindex : position.line - number = (position.line - (number + 1)) + 1 := by omega
        rw [hindex, startsFrom, List.getElem?_cons_succ] at hstart
        have hpast := le_of_mem_startsFrom (List.mem_of_getElem? hstart)
        obtain ⟨lead, rfl⟩ := exists_append_of_byteLength_le htext.symm (by omega)
        rw [byteLength_append, ← Nat.add_assoc] at hstart
        rw [List.flatten_cons, List.append_assoc] at htext
        rw [byteLength_append] at hoffset
        exact ih h (List.append_cancel_left htext) hstart (by omega)

/-! ## The line that is shown -/

/-- The text `shown` is a line of a text without the blanks at its end: what follows are blanks and then a newline or the
end. -/
structure ShowsLine (shown rest : List Char) : Prop where
  one : '\n' ∉ shown
  trimmed : ∀ c, shown.getLast? = some c → isBlank c = false
  follows : ∃ blanks after, rest = shown ++ blanks ++ after ∧ (∀ c ∈ blanks, isBlank c = true ∧ c ≠ '\n') ∧
    (after = [] ∨ after.head? = some '\n')

theorem trimRight_getLast? {c : Char} (h : (trimRight text).getLast? = some c) : isBlank c = false := by
  rw [trimRight, List.getLast?_reverse] at h
  have hhead := List.head?_dropWhile_not isBlank text.reverse
  rw [h] at hhead
  exact hhead

theorem exists_trimRight_append (text : List Char) :
    ∃ blanks, text = trimRight text ++ blanks ∧ ∀ c ∈ blanks, isBlank c = true := by
  refine ⟨(text.reverse.takeWhile isBlank).reverse, ?_, fun c hc => List.mem_takeWhile_imp (List.mem_reverse.1 hc)⟩
  rw [trimRight, ← List.reverse_append, List.takeWhile_append_dropWhile, List.reverse_reverse]

theorem shownLine_shows (rest : List Char) : ShowsLine (shownLine rest) rest := by
  have hline : ∀ c ∈ rest.takeWhile (· ≠ '\n'), c ≠ '\n' := fun c hc => by simpa using List.mem_takeWhile_imp hc
  obtain ⟨blanks, hcut, hblanks⟩ := exists_trimRight_append (rest.takeWhile (· ≠ '\n'))
  constructor
  case one =>
    intro hmem
    have hbegins : shownLine rest <+: rest.takeWhile (· ≠ '\n') := trimRight_prefix _
    exact hline '\n' (hbegins.mem hmem) rfl
  case trimmed => exact fun c => trimRight_getLast?
  case follows =>
    refine ⟨blanks, rest.dropWhile (· ≠ '\n'), ?_, fun c hc => ⟨hblanks c hc, hline c ?_⟩, ?_⟩
    · rw [shownLine, ← hcut, List.takeWhile_append_dropWhile]
    · rw [hcut]
      exact List.mem_append_right _ hc
    · have hhead := List.head?_dropWhile_not (· ≠ '\n') rest
      cases hafter : rest.dropWhile (· ≠ '\n') with
      | nil => exact Or.inl rfl
      | cons c after =>
          rw [hafter] at hhead
          exact Or.inr (congrArg some (by simpa using hhead))

/-! ## The rows -/

theorem notMem_decimal {c : Char} (hc : c.isDigit = false) (n : Nat) : c ∉ decimal n := fun hmem => by
  have := Nat.isDigit_of_mem_toDigits (by decide) (by decide) hmem
  rw [hc] at this
  cases this

namespace Diagnostic

/-- The first row: where it is and what is wrong. -/
def headerRow (file : List Char) (line column : Nat) (message : List Char) : List Char :=
  file ++ ':' :: decimal line ++ ':' :: decimal column ++ " - error: ".toList ++ message

/-- The third row: the line after its number. -/
def sourceRow (line : Nat) (shown : List Char) : List Char :=
  decimal line ++ " | ".toList ++ shown

/-- The last row: the caret, below the third row. -/
def caretRow (line column : Nat) : List Char :=
  List.replicate (decimal line).length ' ' ++ " | ".toList ++ List.replicate (column - 1) ' ' ++ ['^']

theorem renderAt_eq (file : List Char) (position : Position) (message : List Char) :
    renderAt file position message = ['\n'].intercalate
      [headerRow file position.line position.column message, [], sourceRow position.line position.sourceLine,
        caretRow position.line position.column] := by
  simp [renderAt, headerRow, sourceRow, caretRow, List.intercalate]

theorem splitOn_renderAt {file message : List Char} (hfile : '\n' ∉ file) (hmessage : '\n' ∉ message)
    (hsource : '\n' ∉ position.sourceLine) :
    (renderAt file position message).splitOn '\n' =
      [headerRow file position.line position.column message, [], sourceRow position.line position.sourceLine,
        caretRow position.line position.column] := by
  have hdecimal : ∀ n, '\n' ∉ decimal n := notMem_decimal (by decide)
  rw [renderAt_eq]
  refine List.splitOn_intercalate '\n' (fun row hrow => ?_) (List.cons_ne_nil _ _)
  simp only [List.mem_cons, List.not_mem_nil, or_false] at hrow
  rcases hrow with rfl | rfl | rfl | rfl
  · simp [headerRow, hfile, hmessage, hdecimal]
  · exact List.not_mem_nil
  · simp [sourceRow, hsource, hdecimal]
  · simp [caretRow]

/-- The rendering of the diagnostic has its caret under an offset of a text, in the row below the line that begins after
`lead`. The width of a text is a parameter, since it need not be that of its characters one by one. -/
structure DrawsAt (diagnostic : Diagnostic) (width : List Char → Nat) (text : List Char) (offset : Nat)
    (lead shown : List Char) : Prop where
  rows : diagnostic.rendered.splitOn '\n' =
    [headerRow diagnostic.file diagnostic.line diagnostic.column diagnostic.message, [],
      sourceRow diagnostic.line shown, caretRow diagnostic.line diagnostic.column]
  /-- In the last two rows the same index separates the margin. -/
  margin : ∃ index, ∀ row ∈ [sourceRow diagnostic.line shown, caretRow diagnostic.line diagnostic.column],
    (row.drop index).take 3 = " | ".toList ∧ '|' ∉ row.take (index + 1)
  caret : ∃ margin, caretRow diagnostic.line diagnostic.column =
    margin ++ " | ".toList ++ List.replicate (diagnostic.column - 1) ' ' ++ ['^'] ∧ ∀ c ∈ margin, c = ' '
  only : (caretRow diagnostic.line diagnostic.column).count '^' = 1
  begins : (lineStarts text)[diagnostic.line - 1]? = some (byteLength lead)
  line : ∃ rest, text = lead ++ rest ∧ ShowsLine shown rest
  column_pos : 1 ≤ diagnostic.column
  /-- The caret is as far from the separator as the place is if the text before the place is as wide as its characters. -/
  under : ∀ before after, shown = before ++ after → byteLength lead + byteLength before = offset →
    (∀ c ∈ before, IsBasic c) → (width before = diagnostic.column - 1 ↔ WidthAddsUp width before)

theorem margin_of_rows (line column : Nat) (shown : List Char) :
    ∀ row ∈ [sourceRow line shown, caretRow line column],
      (row.drop (decimal line).length).take 3 = " | ".toList ∧ '|' ∉ row.take ((decimal line).length + 1) := by
  have hdecimal : '|' ∉ (decimal line).take ((decimal line).length + 1) :=
    fun hmem => notMem_decimal (by decide) line (List.mem_of_mem_take hmem)
  intro row hrow
  simp only [List.mem_cons, List.not_mem_nil, or_false] at hrow
  rcases hrow with rfl | rfl
  · constructor
    · simp [sourceRow]
    · simp [sourceRow, List.take_append, hdecimal]
  · constructor
    · simp [caretRow]
    · simp [caretRow, List.take_append]

theorem drawsAt_of_locate? (width : List Char → Nat) {file message : List Char} (hfile : '\n' ∉ file)
    (hmessage : '\n' ∉ message) (h : locate? text offset = some position) :
    ∃ lead, DrawsAt ⟨file, position.line, position.column, message, renderAt file position message⟩ width text offset lead
      position.sourceLine := by
  obtain ⟨k, lead, rest, hline, htext, hstart, -, -, hshown, hcolumn⟩ := locateIn_start 0 h
  rw [flatten_lines] at htext
  have hshows : ShowsLine position.sourceLine rest := hshown ▸ shownLine_shows rest
  have hbegins : (startsFrom 0 (lines text))[position.line - 1]? = some (0 + byteLength lead) := by
    rwa [hline, Nat.add_sub_cancel_left]
  refine ⟨lead, ?_⟩
  constructor
  case rows => exact splitOn_renderAt hfile hmessage hshows.one
  case margin => exact ⟨_, margin_of_rows position.line position.column position.sourceLine⟩
  case caret => exact ⟨_, rfl, fun c hc => List.eq_of_mem_replicate hc⟩
  case only => simp [caretRow, List.count_replicate]
  case begins => rwa [Nat.zero_add] at hbegins
  case line => exact ⟨rest, htext, hshows⟩
  case column_pos => exact hcolumn
  case under =>
    intro before after hcut hoffset hbasic
    obtain ⟨blanks, more, hrest, -, -⟩ := hshows.follows
    have hflat : (lines text).flatten = lead ++ (before ++ (after ++ blanks ++ more)) := by
      rw [flatten_lines, htext, hrest, hcut]
      simp only [List.append_assoc]
    have hcolumn := locateIn_column h hflat hbegins hoffset
    rw [sum_columnWeight hbasic] at hcolumn
    rw [WidthAddsUp, Nat.sub_eq_of_eq_add' hcolumn]

/-- A finding with a place in a text that is not empty is rendered in four rows: the header, an empty row, its line after
the number of the line, and a caret below the place, after as many blanks as the text before the place is wide if that is as
wide as its characters are. -/
theorem rendering_points_at_place (width : List Char → Nat) {text file : List Char} {finding : Finding} {offset : Nat}
    (htext : Text.dropMark text ≠ []) (hfile : '\n' ∉ file) (hmessage : '\n' ∉ finding.message)
    (hoffset : finding.offset = some offset) :
    ∃ position lead, locate? (Text.dropMark text) offset = some position ∧
      let diagnostic : Diagnostic :=
        ⟨file, position.line, position.column, finding.message, renderAt file position finding.message⟩
      ofFinding text file finding = .ok diagnostic ∧
        diagnostic.DrawsAt width (Text.dropMark text) offset lead position.sourceLine := by
  obtain ⟨position, hposition⟩ := exists_locate? htext offset
  obtain ⟨lead, hdraws⟩ := drawsAt_of_locate? width hfile hmessage hposition
  obtain ⟨message, place⟩ := finding
  obtain rfl : place = some offset := hoffset
  exact ⟨position, lead, hposition, ofFinding_of_locate? hposition, hdraws⟩

/-- A byte-order mark, a line before, wide characters before the place and blanks after it. -/
def markedText : List Char :=
  "\uFEFFx\r\n한글 = ;  \n".toList

theorem rendering_points_at_place_markedText :
    let width := fun text : List Char => (text.map displayWidth).sum
    let file := "a.ts".toList
    let finding : Finding := ⟨"Expression expected".toList, some 12⟩
    Text.dropMark markedText ≠ [] ∧ '\n' ∉ file ∧ '\n' ∉ finding.message ∧
      ∃ position lead, locate? (Text.dropMark markedText) 12 = some position ∧
        let diagnostic : Diagnostic :=
          ⟨file, position.line, position.column, finding.message, renderAt file position finding.message⟩
        ofFinding markedText file finding = .ok diagnostic ∧
          diagnostic.DrawsAt width (Text.dropMark markedText) 12 lead position.sourceLine := by
  intro width file finding
  have htext : Text.dropMark markedText ≠ [] := by decide
  have hfile : '\n' ∉ file := by decide
  have hmessage : '\n' ∉ finding.message := by decide
  exact ⟨htext, hfile, hmessage, rendering_points_at_place width htext hfile hmessage rfl⟩

example : (ofFinding markedText "a.ts".toList ⟨"Expression expected".toList, some 12⟩).map Diagnostic.rendered =
    .ok "a.ts:2:8 - error: Expression expected\n\n2 | 한글 = ;\n  |        ^".toList := by
  decide +kernel

/-- A heart with the selector that draws it as an emoji, two columns wide, has one column for its characters, so the caret
after it stands too far to the left. For a place in the empty text there is no diagnostic. -/
theorem caret_after_emoji :
    let heart := "❤\uFE0F".toList
    let finding : Finding := ⟨"Expression expected".toList, some (byteLength heart)⟩
    (∀ c ∈ heart, IsBasic c) ∧
      (∃ diagnostic, ofFinding (heart ++ [';']) "a.ts".toList finding = .ok diagnostic ∧ diagnostic.column = 2 ∧
        (shownLine (heart ++ [';'])).take 2 = heart ∧
        ∀ width : List Char → Nat, width heart = 2 → width heart ≠ diagnostic.column - 1) ∧
      ofFinding [] "a.ts".toList ⟨"Expression expected".toList, some 0⟩ = .error .positionInEmptyText := by
  intro heart finding
  have hall : heart.all (fun c => IsBasic c) = true := by decide
  have hbasic : ∀ c ∈ heart, IsBasic c := fun c hc => by simpa using List.all_eq_true.1 hall c hc
  have hof : ofFinding (heart ++ [';']) "a.ts".toList finding = .ok ⟨"a.ts".toList, 1, 2, "Expression expected".toList,
      "a.ts:1:2 - error: Expression expected\n\n1 | ❤\uFE0F;\n  |  ^".toList⟩ := by
    decide +kernel
  refine ⟨hbasic, ⟨_, hof, rfl, by decide +kernel, fun width hwidth => ?_⟩, rfl⟩
  rw [hwidth]
  decide

end Diagnostic

end HangulScript
