import Mathlib.Data.List.Forall2
import HangulScript.Checking
import HangulScript.Proofs.Conversion.Joins
import HangulScript.Proofs.Conversion.Regions
import HangulScript.Proofs.Methods.Locality
import HangulScript.Proofs.Pass.Lines
import HangulScript.Proofs.Scan.Locality

/-!
# Lines through the conversion

Neither pass changes a line end, so what stands in a line of the converted text comes from that line of the source, unless a
word was dropped between a return and a newline, which then are one terminator.
-/

namespace HangulScript

open Text

theorem isNameChar_newline : isNameChar '\n' = false := by decide +kernel

/-! ## The keyword pass -/

namespace Rule

/-- Neither the spelling nor the replacement has a line end. -/
def OneLine (rule : Rule) : Prop :=
  (∀ c ∈ rule.spelling, isLineEnd c = false) ∧ ∀ c ∈ rule.replacement, isLineEnd c = false

instance (rule : Rule) : Decidable rule.OneLine :=
  decidable_of_iff
    (rule.spelling.all (fun c => !isLineEnd c) = true ∧ rule.replacement.all (fun c => !isLineEnd c) = true)
    (by simp [OneLine])

theorem keywordTable_oneLine : ∀ rule ∈ keywordTable, rule.OneLine := by
  decide +kernel

end Rule

namespace Keywords

variable {table : List Rule} {regions : OpenRegions} {before : Option Char} {place : Cursor} {text : List Char}

theorem step_newline (hplain : ∀ rule ∈ table, rule.Plain) (regions : OpenRegions) (before : Option Char)
    (rest : List Char) : step table regions ⟨before, '\n' :: rest⟩ = (.copy ['\n'], regions.after '\n') := by
  have hnil : step table regions ⟨before, '\n' :: rest⟩ = step [] regions ⟨before, '\n' :: rest⟩ := by
    refine step_eq_nil fun _ => Rule.firstMatch?_eq_none_of_head fun rule hrule hhead => ?_
    exact notMem_spelling hplain rfl rule hrule (List.mem_of_head? hhead)
  rw [hnil, step_nil_cons, OpenRegions.pairing?_of_not_takesNext rest (by decide)]

theorem step_before_newline (hplain : ∀ rule ∈ table, rule.Plain) (htext : text ≠ []) :
    (∀ rest, step table regions ⟨before, text ++ '\n' :: rest⟩ = step table regions ⟨before, text⟩) ∨
      (step table regions ⟨before, text⟩).1 = .copy text ∧
        ∃ next, ∀ rest, step table regions ⟨before, text ++ '\n' :: rest⟩ = (.copy (text ++ ['\n']), next) := by
  rcases step_append_stop hplain isNameChar_newline (notMem_spelling hplain rfl) with ⟨rule, hstep, hmore⟩ | ⟨hstep, hmore⟩
  · exact Or.inl fun rest => (hmore regions before rest rfl rfl).trans hstep.symm
  · have hmore := fun rest => hmore regions before rest rfl rfl
    have htext : (Cursor.mk before text).rest ≠ [] := htext
    rcases step_nil_cases regions htext with ⟨c, rest, rfl, hpair, heq⟩ | ⟨c, d, rest, next, rfl, hpair, heq⟩
    · cases rest with
      | cons d rest =>
          have hpair : ∀ more, regions.pairing? c (d :: rest ++ '\n' :: more) = none := fun _ => hpair
          refine Or.inl fun more => ?_
          rw [hmore, hstep, heq, List.cons_append, step_nil_cons, hpair]
      | nil =>
          have hnewline : ∀ more, regions.pairing? c ('\n' :: more) = regions.afterPair? c '\n' := fun _ => rfl
          -- an escape takes the newline along
          cases hnext : regions.afterPair? c '\n' with
          | none =>
              refine Or.inl fun more => ?_
              rw [hmore, hstep, heq, List.singleton_append, step_nil_cons, hnewline, hnext]
          | some next =>
              refine Or.inr ⟨by rw [hstep, heq], next, fun more => ?_⟩
              rw [hmore, List.singleton_append, step_nil_cons, hnewline, hnext]
              rfl
    · have hpair : ∀ more, regions.pairing? c (d :: rest ++ '\n' :: more) = some next := fun _ => hpair
      refine Or.inl fun more => ?_
      rw [hmore, hstep, heq, List.cons_append, step_nil_cons, hpair]
      rfl

theorem keywordPass_keepsLines (hplain : ∀ rule ∈ table, rule.Plain) (hline : ∀ rule ∈ table, rule.OneLine) :
    (keywordPass table).KeepsLines where
  edit regions place hrest := by
    rw [keywordPass_step]
    rcases step_cases table regions place with ⟨rule, -, hrule, hstep⟩ | ⟨-, hstep⟩
    · obtain ⟨hspelling, hreplacement⟩ := hline rule (Rule.mem_of_firstMatch? hrule)
      rw [hstep]
      exact ⟨hspelling, hreplacement, fun hnil => absurd hnil rule.spelling_ne_nil⟩
    · obtain ⟨piece, -, hpiece⟩ := step_nil_copies regions hrest
      rw [hstep, hpiece]
      exact Edit.keepsLines_copy piece
  newline regions before := ⟨_, step_newline hplain regions before⟩
  stop _ _ _ htext := step_before_newline hplain htext

theorem isLineEnd_of_takesNext {c : Char} (h : takesNext c = true) : isLineEnd c = false := by
  have hc : c = '/' ∨ c = '*' ∨ c = '\\' ∨ c = '$' := by simpa [takesNext] using h
  rcases hc with rfl | rfl | rfl | rfl <;> rfl

/-- What a step writes has no line end before its last character. -/
theorem step_written_apart (hline : ∀ rule ∈ table, rule.OneLine) (regions : OpenRegions) (hrest : place.rest ≠ []) :
    ∀ c ∈ (step table regions place).1.written.dropLast, isLineEnd c = false := by
  intro c hc
  rcases step_cases table regions place with ⟨rule, -, hrule, hstep⟩ | ⟨-, hstep⟩
  · rw [hstep] at hc
    exact (hline rule (Rule.mem_of_firstMatch? hrule)).2 c (List.dropLast_subset _ hc)
  · rw [hstep] at hc
    rcases step_nil_cases regions hrest with ⟨d, -, -, -, hcopy⟩ | ⟨d, e, -, next, -, hpair, hcopy⟩
    · rw [hcopy] at hc
      cases hc
    · -- no line ends with the first character of a pair
      rw [hcopy] at hc
      obtain rfl : c = d := List.mem_singleton.1 hc
      exact isLineEnd_of_takesNext (takesNext_of_afterPair? hpair)

/-- A step that removes something puts something in its place. -/
theorem step_leaves (hplain : ∀ rule ∈ table, rule.Plain) (hrest : place.rest ≠ [])
    (h : (step table regions place).1.inserted = []) : (step table regions place).1.removed = [] := by
  rcases step_cases table regions place with ⟨rule, -, hrule, hstep⟩ | ⟨-, hstep⟩
  · rw [hstep] at h
    exact absurd h (hplain rule (Rule.mem_of_firstMatch? hrule)).2.2
  · obtain ⟨piece, -, hpiece⟩ := step_nil_copies regions hrest
    rw [hstep, hpiece]
    rfl

end Keywords

/-! ## The method pass -/

namespace Methods

theorem step_newline (state : State) (before : Option Char) (rest : List Char) :
    step state ⟨before, '\n' :: rest⟩ = (.copy ['\n'], state) := by
  have hclass : (Cursor.mk before ('\n' :: rest)).holdsWord classWord = false :=
    holdsWord_stop (notMem_words isNameChar_newline (by decide)).1 (by decide)
  have henter : state.enter ⟨before, '\n' :: rest⟩ = state := by
    simp [State.enter, hclass]
  have hblank : isBlank '\n' = true := by decide
  have hsolid : lastSolidAfter state.lastSolid ['\n'] = state.lastSolid := by
    simp [lastSolidAfter, hblank]
  rw [step, edit_stop state before rest isNameChar_newline (by decide), henter, Edit.written_copy, hsolid]

theorem methodPass_keepsLines : methodPass.KeepsLines where
  edit state place hrest := by
    rw [methodPass_step, step]
    rcases edit_cases state hrest with ⟨piece, -, hedit⟩ | hdrops
    · rw [hedit]
      exact Edit.keepsLines_copy piece
    · have hall : (functionWord ++ [' ']).all (fun c => !isLineEnd c) = true := by decide
      have hword : ∀ c ∈ functionWord ++ [' '], isLineEnd c = false := fun c hc => by
        simpa using List.all_eq_true.1 hall c hc
      refine ⟨fun c hc => hword c ?_, fun c hc => ?_, fun _ => hdrops.inserted⟩
      · rcases hdrops.removed with hremoved | ⟨hremoved, -⟩
        · exact hremoved ▸ hc
        · exact List.mem_append_left _ (hremoved ▸ hc)
      · rw [hdrops.inserted] at hc
        cases hc
  newline state before := ⟨state, step_newline state before⟩
  stop _ _ _ htext := Or.inl fun _ => step_append_stop isNameChar_newline (by decide) htext

end Methods

/-! ## What the method pass leaves of a line -/

theorem keepsEnds_droppedBy (text : List Char) : KeepsEnds (droppedBy (methodPass.run text).visits) 0 text := by
  intro a c b htext hgone
  rw [Nat.zero_add] at hgone
  obtain ⟨-, v, q₁, q₂, hv, -, -, -, -, hremoved⟩ := exists_removed_of_droppedBy htext hgone
  exact (Methods.methodPass_keepsLines.of_mem_run hv).removed c (by simp [hremoved])

theorem lineEnds_survivors_bareMethods (a b : List Char) :
    lineEnds (survivors (droppedBy (methodPass.run (a ++ b)).visits) 0 a) = lineEnds a :=
  filter_survivors fun x c y ha hgone => keepsEnds_droppedBy (a ++ b) x c (y ++ b) (by simp [ha]) hgone

/-! ## Diagnostics -/

/-- Items taken one by one all succeed, or one of them gives the failure. -/
theorem mapM_cases {α β ε : Type} (f : α → Except ε β) (xs : List α) :
    (∃ ys, xs.mapM f = .ok ys ∧ List.Forall₂ (fun x y => f x = .ok y) xs ys) ∨
      ∃ e, xs.mapM f = .error e ∧ ∃ x ∈ xs, f x = .error e := by
  induction xs with
  | nil => exact Or.inl ⟨[], rfl, .nil⟩
  | cons x xs ih =>
      rw [List.mapM_cons]
      cases hx : f x with
      | error e => exact Or.inr ⟨e, rfl, x, List.mem_cons_self, hx⟩
      | ok y =>
          rcases ih with ⟨ys, hxs, hys⟩ | ⟨e, hxs, z, hz, hfz⟩
          · exact Or.inl ⟨y :: ys, by rw [hxs]; rfl, .cons hx hys⟩
          · exact Or.inr ⟨e, by rw [hxs]; rfl, z, List.mem_cons_of_mem x hz, hfz⟩

theorem exists_of_mem_mapM {α β ε : Type} {f : α → Except ε β} {xs : List α} {ys : List β} {y : β}
    (h : xs.mapM f = .ok ys) (hy : y ∈ ys) : ∃ x ∈ xs, f x = .ok y := by
  rcases mapM_cases f xs with ⟨zs, hxs, hall⟩ | ⟨e, hxs, -⟩
  · obtain rfl := Except.ok.inj (hxs.symm.trans h)
    obtain ⟨i, rfl⟩ := List.mem_iff_get.1 hy
    have hi : i < xs.length := Nat.lt_of_lt_of_eq i.isLt hall.length_eq.symm
    exact ⟨_, List.get_mem xs ⟨i, hi⟩, hall.get hi i.isLt⟩
  · rw [h] at hxs
    cases hxs

/-- What a check reports was found in the converted text. -/
theorem Checked.diagnose_eq {inspect : Inspector} {source name out : List Char} {checked : Checked}
    (hout : toTypeScript source = .ok out) (h : Checked.ofSource inspect source name = .ok checked) :
    diagnose inspect out checked.report.file = .ok checked.report.diagnostics := by
  cases hdone : convert {} source with
  | error e =>
      rw [Checked.ofSource, hdone] at h
      cases h
  | ok done =>
      obtain rfl : done.text = out := by
        rw [toTypeScript, hdone] at hout
        exact Except.ok.inj hout
      cases hfound : diagnose inspect done.text (Path.checkedName name) with
      | error e =>
          simp [Checked.ofSource, hdone, hfound, bind, Except.bind] at h
      | ok found =>
          simp only [Checked.ofSource, hdone, hfound, bind, Except.bind, pure, Except.pure] at h
          cases h
          exact hfound

/-! ## Both passes -/

variable {source : List Char}

theorem keywordTable_keepsLines : (keywordPass keywordTable).KeepsLines :=
  Keywords.keywordPass_keepsLines Rule.keywordTable_plain Rule.keywordTable_oneLine

theorem lineEnds_converted (source : List Char) : lineEnds (bareMethods (keyed source)) = lineEnds source :=
  (Methods.methodPass_keepsLines.lineEnds_output (keyed source)).trans (keywordTable_keepsLines.lineEnds_output source)

theorem noLonger_converted (source : List Char) : NoLonger (bareMethods (keyed source)) source :=
  (Methods.methodPass_keepsLines.noLonger (keyed source)).trans (keywordTable_keepsLines.noLonger source)

theorem converted_newline (a b : List Char) :
    ∃ tail, bareMethods (keyed (a ++ '\n' :: b)) = bareMethods (keyed a) ++ '\n' :: tail ∧
      bareMethods (keyed (a ++ ['\n'])) = bareMethods (keyed a) ++ ['\n'] := by
  obtain ⟨keyedTail, hkeyed, hkeyedLine⟩ := keywordTable_keepsLines.output_newline a b
  obtain ⟨tail, hbare, hbareLine⟩ := Methods.methodPass_keepsLines.output_newline (keyed a) keyedTail
  refine ⟨tail, ?_, ?_⟩
  · rw [keyed, hkeyed]
    exact hbare
  · rw [keyed, hkeyedLine]
    exact hbareLine

theorem keyed_of_visits {earlier later : List (Visit OpenRegions)} {v : Visit OpenRegions}
    (hvisits : ((keywordPass keywordTable).run source).visits = earlier ++ v :: later) :
    keyed source = writtenBy earlier ++ (v.edit.written ++ writtenBy later) := by
  rw [keyed, Trace.output_eq, hvisits, writtenBy_append, writtenBy_cons]

/-- A piece of the source stands in the converted text after the same line ends, less what the method pass drops. -/
theorem converted_piece {earlier later : List (Visit OpenRegions)} {v : Visit OpenRegions}
    (hvisits : ((keywordPass keywordTable).run source).visits = earlier ++ v :: later) :
    let gone := droppedBy (methodPass.run (keyed source)).visits
    let before := survivors gone 0 (writtenBy earlier)
    source = readBy earlier ++ (v.edit.consumed ++ readBy later) ∧
      bareMethods (keyed source) = before ++
        (survivors gone (byteLength (writtenBy earlier)) v.edit.written ++
          survivors gone (byteLength (writtenBy earlier) + byteLength v.edit.written) (writtenBy later)) ∧
      lineEnds before = lineEnds (readBy earlier) := by
  have hkeyed := keyed_of_visits hvisits
  refine ⟨?_, ?_, ?_⟩
  · rw [← Pass.source_run (keywordPass keywordTable) source, Trace.source_eq, hvisits, readBy_append, readBy_cons]
  · rw [Methods.bareMethods_eq_survivors]
    conv_lhs => rw [hkeyed]
    rw [survivors_append, survivors_append, Nat.zero_add, ← hkeyed]
  · have hearlier : ∀ u ∈ earlier, u ∈ ((keywordPass keywordTable).run source).visits := fun u hu => by
      simp [hvisits, hu]
    rw [hkeyed, lineEnds_survivors_bareMethods, keywordTable_keepsLines.lineEnds_writtenBy hearlier]

/-- In what is left of a piece no line ends before the last character. -/
theorem isLineEnd_of_left {v : Visit OpenRegions} {gone : Nat → Bool} {offset : Nat} {p q : List Char}
    (hv : v ∈ ((keywordPass keywordTable).run source).visits) (hleft : survivors gone offset v.edit.written = p ++ q)
    (hq : q ≠ []) : ∀ c ∈ p, isLineEnd c = false := by
  obtain ⟨-, -, hrest, -, hedit, -⟩ := Pass.of_mem_run hv
  obtain ⟨d, q, rfl⟩ := List.exists_cons_of_ne_nil hq
  obtain ⟨lead, rest, hwritten, -, hlead, -⟩ := survivors_eq_append_cons hleft
  intro c hc
  have hmem : c ∈ lead := (survivors_sublist offset lead).subset (hlead ▸ hc)
  refine Keywords.step_written_apart Rule.keywordTable_oneLine v.state hrest c ?_
  rw [← Keywords.keywordPass_step, ← hedit, hwritten, List.dropLast_append_of_ne_nil (List.cons_ne_nil d rest)]
  exact List.mem_append_left _ hmem

theorem sameEnds_later {earlier later : List (Visit OpenRegions)}
    (hvisits : ((keywordPass keywordTable).run source).visits = earlier ++ later) :
    SameEnds (writtenBy later) (readBy later) := by
  have hlater : ∀ v ∈ later, v ∈ ((keywordPass keywordTable).run source).visits := fun v hv => by
    rw [hvisits]
    exact List.mem_append_right _ hv
  refine keywordTable_keepsLines.sameEnds hlater fun v hv hinserted => ?_
  obtain ⟨-, -, hrest, -, hedit, -⟩ := Pass.of_mem_run (hlater v hv)
  rw [hedit] at hinserted ⊢
  exact Keywords.step_leaves Rule.keywordTable_plain hrest hinserted

theorem endedLines_keyed (source : List Char) : endedLines (keyed source) = endedLines source := by
  have hread : readBy ((keywordPass keywordTable).run source).visits = source := Pass.source_run _ source
  rw [keyed, Trace.output_eq, (sameEnds_later (List.nil_append _).symm).endedLines_eq, hread]

/-- A place of the converted text is in the line of a place of the source, or further up if `joins` holds. A finding there
is reported in that line. -/
def LinesAgree (source out : List Char) (here there : Nat) (joins : Prop) : Prop :=
  ∃ position position', locate? source here = some position ∧ locate? out there = some position' ∧
    position'.line ≤ position.line ∧ (position'.line = position.line ↔ ¬ joins) ∧
    ∀ file message offset, there + byteLength (Text.dropMark out) = byteLength out + offset →
      ∃ diagnostic, Diagnostic.ofFinding out file ⟨message, some offset⟩ = .ok diagnostic ∧
        diagnostic.line = position'.line

/-- What is left of a piece stands in the line of the piece, unless a return before it meets a newline. -/
theorem converted_line {earlier later : List (Visit OpenRegions)} {v : Visit OpenRegions} {p q : List Char}
    (hvisits : ((keywordPass keywordTable).run source).visits = earlier ++ v :: later) :
    let gone := droppedBy (methodPass.run (keyed source)).visits
    survivors gone (byteLength (writtenBy earlier)) v.edit.written = p ++ q → q ≠ [] →
      LinesAgree source (bareMethods (keyed source)) (byteLength (readBy earlier))
        (byteLength (survivors gone 0 (writtenBy earlier) ++ p))
        (JoinsReturn gone 0 (writtenBy earlier) (v.edit.written ++ writtenBy later)) := by
  intro gone hleft hq
  obtain ⟨hsource, hout, -⟩ := converted_piece hvisits
  have hmem : v ∈ ((keywordPass keywordTable).run source).visits := by simp [hvisits]
  obtain ⟨-, -, hrest, -, hedit, -⟩ := Pass.of_mem_run hmem
  have hconsumed : v.edit.consumed ≠ [] := hedit ▸ (keywordPass keywordTable).consumed_ne_nil v.state v.place hrest
  have hkeyed := keyed_of_visits hvisits
  have hends : KeepsEnds gone 0 (writtenBy earlier ++ (v.edit.written ++ writtenBy later)) :=
    hkeyed ▸ keepsEnds_droppedBy (keyed source)
  obtain ⟨hle, heq⟩ := endedLines_survivors hends
  rw [← hkeyed, Nat.zero_add, ← Methods.bareMethods_eq_survivors] at hle heq
  -- the piece in the source
  obtain ⟨here, hhere, hhereLine⟩ := locate?_line (p := readBy earlier)
    (List.append_ne_nil_of_left_ne_nil hconsumed (readBy later))
  have hwhole := endedLines_keyed source
  have hlater : endedLines (v.edit.written ++ writtenBy later) = endedLines (v.edit.consumed ++ readBy later) := by
    rw [← writtenBy_cons, ← readBy_cons, (sameEnds_later hvisits).endedLines_eq]
  rw [← hsource] at hhere hhereLine
  -- what is left of it
  have hleftLines : endedLines (survivors gone (byteLength (writtenBy earlier)) (v.edit.written ++ writtenBy later)) =
      endedLines (q ++ survivors gone (byteLength (writtenBy earlier) + byteLength v.edit.written) (writtenBy later)) := by
    rw [survivors_append, hleft, List.append_assoc, endedLines_append_apart (isLineEnd_of_left hmem hleft hq)]
  rw [hleft, List.append_assoc, ← List.append_assoc] at hout
  have hne := List.append_ne_nil_of_left_ne_nil hq
    (survivors gone (byteLength (writtenBy earlier) + byteLength v.edit.written) (writtenBy later))
  obtain ⟨there, hthere, hthereLine⟩ := locate?_line (p := survivors gone 0 (writtenBy earlier) ++ p) hne
  rw [← hout] at hthere hthereLine
  refine ⟨here, there, hhere, hthere, by omega, by rw [← heq]; omega, fun file message offset hoffset => ?_⟩
  obtain ⟨p', hmark, rfl⟩ := exists_dropMark hout hoffset
  obtain ⟨diagnostic, hdiagnostic, hline⟩ := Diagnostic.exists_line hmark hne file message
  exact ⟨diagnostic, hdiagnostic, Nat.add_right_cancel (hline.trans hthereLine.symm)⟩

/-- The lines of a source and of the text that it is converted to, in the run of the keyword pass that `trace` records. -/
structure SameLines (source : List Char) (trace : Trace OpenRegions) (out : List Char) : Prop where
  ends : lineEnds out = lineEnds source
  /-- No change of either pass spans a line end. -/
  keywords : ∀ v ∈ trace.changes, ∀ c ∈ v.edit.removed ++ v.edit.inserted, isLineEnd c = false
  methods : ∀ v ∈ (methodPass.run trace.output).changes, ∀ c ∈ v.edit.removed ++ v.edit.inserted, isLineEnd c = false
  /-- Up to each newline stands what the text of the source up to that newline is converted to. -/
  newline : ∀ a b, source = a ++ '\n' :: b → ∃ x y, out = x ++ '\n' :: y ∧ x.count '\n' = a.count '\n' ∧
    toTypeScript a = .ok x ∧ toTypeScript (a ++ ['\n']) = .ok (x ++ ['\n'])
  /-- What a visit wrote stands, less what the method pass drops, after the line ends that stood before what it read. -/
  piece : ∀ earlier v later, trace.visits = earlier ++ v :: later →
    let gone := droppedBy (methodPass.run trace.output).visits
    let before := survivors gone 0 (writtenBy earlier)
    source = readBy earlier ++ (v.edit.consumed ++ readBy later) ∧
      out = before ++ (survivors gone (byteLength (writtenBy earlier)) v.edit.written ++
        survivors gone (byteLength (writtenBy earlier) + byteLength v.edit.written) (writtenBy later)) ∧
      lineEnds before = lineEnds (readBy earlier)
  /-- A diagnostic of the converted text names a line of the source, or none if the finding has no place. -/
  diagnostic : ∀ inspect name checked, Checked.ofSource inspect source name = .ok checked →
    ∀ diagnostic ∈ checked.report.diagnostics, ∃ finding ∈ inspect out,
      Diagnostic.ofFinding out checked.report.file finding = .ok diagnostic ∧
        diagnostic.line ≤ (lines source).length ∧ (finding.offset.isSome = true → 1 ≤ diagnostic.line)
  /-- What is left of a piece stands in the line of the piece, unless a return before it meets a newline. -/
  line : ∀ earlier v later p q, trace.visits = earlier ++ v :: later →
    let gone := droppedBy (methodPass.run trace.output).visits
    survivors gone (byteLength (writtenBy earlier)) v.edit.written = p ++ q → q ≠ [] →
      LinesAgree source out (byteLength (readBy earlier)) (byteLength (survivors gone 0 (writtenBy earlier) ++ p))
        (JoinsReturn gone 0 (writtenBy earlier) (v.edit.written ++ writtenBy later))

/-- Both passes keep the line ends of every source, and what is left of a piece stays in its line unless a return before it
meets a newline. -/
theorem conversion_keeps_lines (hbraces : source.count '{' < Region.maxHoleDepth) :
    ∃ trace out, traceKeywords keywordTable source = .ok trace ∧ replaceKeywords source = .ok trace.output ∧
      toTypeScript source = .ok out ∧ SameLines source trace out := by
  have hedit : ∀ {σ : Type} {v : Visit σ}, v.edit.KeepsLines →
      ∀ c ∈ v.edit.removed ++ v.edit.inserted, isLineEnd c = false := fun h c hc =>
    (List.mem_append.1 hc).elim (h.removed c) (h.inserted c)
  refine ⟨_, _, Keywords.traceKeywords_ok keywordTable hbraces, replaceKeywords_ok hbraces, toTypeScript_ok hbraces, ?_⟩
  constructor
  case ends => exact lineEnds_converted source
  case keywords => exact fun v hv => hedit (keywordTable_keepsLines.of_mem_run (List.mem_filter.1 hv).1)
  case methods => exact fun v hv => hedit (Methods.methodPass_keepsLines.of_mem_run (List.mem_filter.1 hv).1)
  case newline =>
    rintro a b rfl
    rw [List.count_append] at hbraces
    have ha : a.count '{' < Region.maxHoleDepth := by omega
    have hline : (a ++ ['\n']).count '{' < Region.maxHoleDepth := by simpa using ha
    obtain ⟨tail, hall, hlast⟩ := converted_newline a b
    refine ⟨_, tail, hall, ?_, toTypeScript_ok ha, ?_⟩
    · rw [← count_lineEnds rfl, lineEnds_converted, count_lineEnds rfl]
    · rw [toTypeScript_ok hline, hlast]
  case piece => exact fun earlier v later => converted_piece
  case diagnostic =>
    intro inspect name checked hchecked diagnostic hmem
    have hdiagnose := Checked.diagnose_eq (toTypeScript_ok hbraces) hchecked
    obtain ⟨finding, hfinding, hof⟩ := exists_of_mem_mapM hdiagnose hmem
    obtain ⟨hle, hpos⟩ := Diagnostic.line_le hof
    exact ⟨finding, hfinding, hof, Nat.le_trans hle (noLonger_converted source).length_le, hpos⟩
  case line => exact fun earlier v later p q => converted_line

/-- Methods on lines of their own, an escaped newline in a string, a word between a return and a newline. -/
def methodsOnLines : List Char :=
  "클래스 가 \x7b\n함수 나() \x7b 반환 \"\\\n\" \x7d\r함수\n다() \x7b\x7d\u2028\x7d\r\n참".toList

theorem conversion_keeps_lines_of_class :
    methodsOnLines.count '{' < Region.maxHoleDepth ∧
      ∃ trace out, traceKeywords keywordTable methodsOnLines = .ok trace ∧
        replaceKeywords methodsOnLines = .ok trace.output ∧ toTypeScript methodsOnLines = .ok out ∧
        SameLines methodsOnLines trace out :=
  ⟨by decide, conversion_keeps_lines (by decide)⟩

/-- A word of a class body that stands alone between a return and a newline, and an expression that is missing later on. -/
def wordAfterReturn : List Char :=
  "클래스 A \x7b\r함수\nf() \x7b\x7d\n\x7d\n상수 x = ;\n".toList

/-- Without the word the return and the newline are one terminator, so the semicolon stands in an earlier line. -/
theorem dropped_word_joins_lines :
    wordAfterReturn.count '{' < Region.maxHoleDepth ∧
      ∃ trace out, traceKeywords keywordTable wordAfterReturn = .ok trace ∧ toTypeScript wordAfterReturn = .ok out ∧
        out = "class A \x7b\r\nf() \x7b\x7d\n\x7d\nconst x = ;\n".toList ∧
        let earlier := trace.visits.take 23
        trace.visits[23]?.map (·.edit) = some (.copy [';']) ∧
        (locate? wordAfterReturn (byteLength (readBy earlier))).map (·.line) = some 5 ∧
        let gone := droppedBy (methodPass.run trace.output).visits
        (locate? out (byteLength (survivors gone 0 (writtenBy earlier)))).map (·.line) = some 4 := by
  have hbraces : wordAfterReturn.count '{' < Region.maxHoleDepth := by decide
  have hrun : let trace := (keywordPass keywordTable).run wordAfterReturn
      trace.output = "class A \x7b\rfunction\nf() \x7b\x7d\n\x7d\nconst x = ;\n".toList ∧
      trace.visits[23]?.map (·.edit) = some (.copy [';']) ∧
      readBy (trace.visits.take 23) = "클래스 A \x7b\r함수\nf() \x7b\x7d\n\x7d\n상수 x = ".toList ∧
      writtenBy (trace.visits.take 23) = "class A \x7b\rfunction\nf() \x7b\x7d\n\x7d\nconst x = ".toList := by
    rw [Pass.run_eq_runWithin]
    decide +kernel
  obtain ⟨hkeyed, hpiece, hread, hwritten⟩ := hrun
  have hout : bareMethods (keyed wordAfterReturn) = "class A \x7b\r\nf() \x7b\x7d\n\x7d\nconst x = ;\n".toList := by
    rw [keyed, hkeyed, bareMethods, Pass.run_eq_runWithin]
    decide +kernel
  refine ⟨hbraces, _, _, Keywords.traceKeywords_ok keywordTable hbraces, toTypeScript_ok hbraces, hout, hpiece, ?_, ?_⟩
  · rw [hread]
    decide +kernel
  · rw [hwritten, hout, hkeyed, Pass.run_eq_runWithin]
    decide +kernel

end HangulScript
