import HangulScript.Proofs.Keyword.Table
import HangulScript.Proofs.Region.Stretches
import HangulScript.Proofs.Scan.Splice

/-!
# The scan of the regions alone

The scan with the empty table goes through the source as the scan with any plain table does, only that it reads a spelling
character by character, and it goes through the rewritten text in the same way.
-/

namespace HangulScript

open Text

/-- The scan that follows the regions and replaces nothing. -/
def regionScan (text : List Char) : Trace OpenRegions :=
  (keywordPass []).run text

namespace Keywords

variable {table : List Rule} {source text : List Char} {done : List (Visit OpenRegions)} {regions : OpenRegions}
  {place : Cursor}

/-! ## Plain text -/

/-- The visits of a text that is read character by character. -/
def singles (regions : OpenRegions) : Nat → Cursor → List Char → List (Visit OpenRegions)
  | _, _, [] => []
  | offset, place, c :: rest =>
    ⟨offset, place, regions, .copy [c]⟩ :: singles regions (offset + c.utf8Size) (place.advance 1) rest

theorem mem_singles {offset : Nat} {place : Cursor} {piece rest : List Char} {v : Visit OpenRegions}
    (hrest : place.rest = piece ++ rest) (hv : v ∈ singles regions offset place piece) :
    ∃ a c b, piece = a ++ c :: b ∧ v = ⟨offset + byteLength a, place.advance a.length, regions, .copy [c]⟩ := by
  induction piece generalizing offset place with
  | nil => cases hv
  | cons c piece ih =>
      rcases List.mem_cons.1 hv with rfl | hv
      · exact ⟨[], c, piece, rfl, by simp⟩
      · obtain ⟨a, d, b, rfl, rfl⟩ := ih (by simp [hrest]) hv
        refine ⟨c :: a, d, b, rfl, ?_⟩
        have hadvance := Cursor.advance_advance place [c] a (by simpa using hrest)
        rw [List.length_singleton] at hadvance
        simp [hadvance, Nat.add_assoc, Nat.add_comm]

theorem step_nil_of_not_marksRegion {before : Option Char} {c : Char} {rest : List Char}
    (h : marksRegion c = false) : step [] regions ⟨before, c :: rest⟩ = (.copy [c], regions) := by
  rw [step_nil_cons, OpenRegions.pairing?_of_not_takesNext _ (takesNext_of_not_marksRegion h),
    OpenRegions.after_of_not_marksRegion h]

theorem reaches_singles {piece rest : List Char} (h : (keywordPass []).Reaches text done regions place)
    (hrest : place.rest = piece ++ rest) (hplain : ∀ c ∈ piece, marksRegion c = false) :
    (keywordPass []).Reaches text (done ++ singles regions (byteLength (readBy done)) place piece) regions
      (place.advance piece.length) := by
  induction piece generalizing done place with
  | nil => simpa [singles] using h
  | cons c piece ih =>
      have hplace : place = ⟨place.before, c :: (piece ++ rest)⟩ := by
        rw [← List.cons_append, ← hrest]
      have hstep : step [] regions place = (.copy [c], regions) := by
        rw [hplace]
        exact step_nil_of_not_marksRegion (hplain c List.mem_cons_self)
      have hnext := h.step (by simp [hrest])
      simp only [keywordPass_step, hstep, Edit.consumed_copy, List.length_singleton] at hnext
      have htail := ih hnext (by simp [hrest]) fun d hd => hplain d (List.mem_cons_of_mem c hd)
      have hadvance := Cursor.advance_advance place [c] piece (by simpa using hrest)
      rw [List.length_singleton] at hadvance
      simpa [singles, hadvance, Nat.add_comm] using htail

theorem turns_singles (done : List (Visit OpenRegions)) (regions : OpenRegions) (offset : Nat) (place : Cursor)
    (piece : List Char) :
    (Trace.mk (done ++ singles regions offset place piece) regions).turns = (Trace.mk done regions).turns := by
  induction piece generalizing done offset place with
  | nil => simp [singles]
  | cons c piece ih =>
      rw [singles, List.append_cons, ih]
      exact Trace.turns_append_stay done ⟨offset, place, regions, .copy [c]⟩

theorem cut_singles (hcode : regions.innermost.holdsCode = true) (done : List (Visit OpenRegions)) (offset : Nat)
    (place : Cursor) (piece : List Char) :
    (Trace.mk (done ++ singles regions offset place piece) regions).cut = (Trace.mk done regions).cut := by
  induction piece generalizing done offset place with
  | nil => simp [singles]
  | cons c piece ih =>
      rw [singles, List.append_cons, ih]
      exact Trace.cut_append_stay done (v := ⟨offset, place, regions, .copy [c]⟩) hcode

/-! ## The source -/

/-- What the empty table does where a table made a visit. -/
def spread (v : Visit OpenRegions) : List (Visit OpenRegions) :=
  if v.edit.changes then singles v.state v.offset v.place v.edit.removed else [v]

theorem reaches_spread (hplain : ∀ rule ∈ table, rule.Plain)
    (h : (keywordPass table).Reaches source done regions place) :
    (keywordPass []).Reaches source (done.flatMap spread) regions place ∧
      (Trace.mk (done.flatMap spread) regions).turns = (Trace.mk done regions).turns ∧
      (Trace.mk (done.flatMap spread) regions).cut = (Trace.mk done regions).cut := by
  induction h with
  | start => exact ⟨.start, rfl, rfl⟩
  | @step done regions place h hrest ih =>
      obtain ⟨hreach, hturns, hcut⟩ := ih
      -- both scans have read the same text
      have hread : readBy (done.flatMap spread) = readBy done :=
        List.append_cancel_right (hreach.text_eq.symm.trans h.text_eq)
      rw [List.flatMap_append, List.flatMap_singleton, keywordPass_step]
      rcases step_cases table regions place with ⟨rule, htries, hrule, hstep⟩ | ⟨-, hstep⟩
      · have hmem := Rule.mem_of_firstMatch? hrule
        obtain ⟨rest, hrest'⟩ := Rule.spelling_prefix (Rule.applies_of_firstMatch? hrule)
        have hspread : spread ⟨byteLength (readBy done), place, regions, ⟨[], rule.spelling, rule.replacement⟩⟩ =
            singles regions (byteLength (readBy (done.flatMap spread))) place rule.spelling := by
          rw [spread, hread]
          exact if_pos (changes_of_rule rule)
        rw [hstep, hspread]
        refine ⟨reaches_singles hreach hrest'.symm (hplain rule hmem).1, ?_, ?_⟩
        · rw [turns_singles, Trace.turns_append_stay done ⟨_, _, regions, _⟩, hturns]
        · rw [cut_singles htries.1, Trace.cut_append_stay done (v := ⟨_, _, regions, _⟩) htries.1, hcut]
      · obtain ⟨piece, -, hpiece⟩ := step_nil_copies regions hrest
        have hnext := hreach.step hrest
        have hspread : spread ⟨byteLength (readBy done), place, regions, (step [] regions place).1⟩ =
            [⟨byteLength (readBy (done.flatMap spread)), place, regions, (step [] regions place).1⟩] := by
          rw [spread, hread, hpiece]
          rfl
        rw [hstep, hspread]
        refine ⟨hnext, ?_, ?_⟩
        · rw [Trace.turns_append, Trace.turns_append]
          simp only [hturns]
        · rw [Trace.cut_append, Trace.cut_append]
          simp only [hcut, hread]

/-! ## The rewritten text -/

/-- What the run writes from a place on begins like the text there, or plain characters begin both. -/
theorem head_output (hplain : ∀ rule ∈ table, rule.Plain) (offset : Nat) (regions : OpenRegions) (place : Cursor) :
    ((keywordPass table).runFrom offset regions place).output.head? = place.rest.head? ∨
      ∃ c d, place.rest.head? = some c ∧
        ((keywordPass table).runFrom offset regions place).output.head? = some d ∧
        marksRegion c = false ∧ marksRegion d = false := by
  by_cases hrest : place.rest = []
  · rw [(keywordPass table).runFrom_nil hrest, hrest]
    exact Or.inl rfl
  · rw [(keywordPass table).runFrom_of_ne_nil hrest, keywordPass_step]
    rcases step_cases table regions place with ⟨rule, -, hrule, hstep⟩ | ⟨-, hstep⟩
    · obtain ⟨hspelling, hreplacement, hne⟩ := hplain rule (Rule.mem_of_firstMatch? hrule)
      obtain ⟨rest, hrest'⟩ := Rule.spelling_prefix (Rule.applies_of_firstMatch? hrule)
      obtain ⟨c, spelling, hc⟩ := List.exists_cons_of_ne_nil rule.spelling_ne_nil
      obtain ⟨d, replacement, hd⟩ := List.exists_cons_of_ne_nil hne
      refine Or.inr ⟨c, d, by rw [← hrest', hc]; rfl, ?_, hspelling c (by simp [hc]), hreplacement d (by simp [hd])⟩
      simp [hstep, Trace.output_eq, Edit.written, hd]
    · rcases step_nil_cases regions hrest with ⟨c, rest, hrest', -, heq⟩ | ⟨c, d, rest, next, hrest', -, heq⟩
      · exact Or.inl (by simp [hstep, heq, hrest', Trace.output_eq])
      · exact Or.inl (by simp [hstep, heq, hrest', Trace.output_eq])

theorem pairing?_output (hplain : ∀ rule ∈ table, rule.Plain) (offset : Nat) (regions next : OpenRegions)
    (place : Cursor) (c : Char) :
    regions.pairing? c ((keywordPass table).runFrom offset next place).output = regions.pairing? c place.rest := by
  unfold OpenRegions.pairing?
  rcases head_output hplain offset next place with heq | ⟨d, e, hd, he, hplaind, hplaine⟩
  · rw [heq]
  · rw [hd, he]
    exact OpenRegions.afterPair?_congr hplaine hplaind

/-- Over what is written the empty table makes the step that it makes over the text. -/
theorem step_nil_output (regions : OpenRegions) (hplain : ∀ rule ∈ table, rule.Plain) (hrest : place.rest ≠ [])
    (before : Option Char) (offset : Nat) :
    step [] regions ⟨before, (step [] regions place).1.written ++
        ((keywordPass table).runFrom offset (step [] regions place).2
          (place.advance (step [] regions place).1.consumed.length)).output⟩ =
      step [] regions place := by
  rcases step_nil_cases regions hrest with ⟨c, rest, hplace, hpair, heq⟩ | ⟨c, d, rest, next, hplace, hpair, heq⟩
  · rw [heq, Edit.written_copy, Edit.consumed_copy, List.singleton_append, step_nil_cons, pairing?_output hplain,
      Cursor.advance_rest, hplace, List.length_singleton, List.drop_one, List.tail_cons, hpair]
  · rw [heq, Edit.written_copy, List.cons_append, step_nil_cons]
    simp [OpenRegions.pairing?, hpair]

theorem reaches_output (hplain : ∀ rule ∈ table, rule.Plain)
    (h : (keywordPass table).Reaches source done regions place) :
    ∃ done' before,
      (keywordPass []).Reaches ((keywordPass table).run source).output done' regions
        ⟨before, ((keywordPass table).runFrom (byteLength (readBy done)) regions place).output⟩ ∧
      (Trace.mk done' regions).turns = (Trace.mk done regions).turns ∧
      (Trace.mk done' regions).cut.map Stretch.content = (Trace.mk done regions).cut.map Stretch.content := by
  induction h with
  | start => exact ⟨[], none, .start, rfl, rfl⟩
  | @step done regions place h hrest ih =>
      obtain ⟨done', before, hreach, hturns, hcut⟩ := ih
      have hoffset : byteLength (readBy (done ++ [⟨byteLength (readBy done), place, regions,
          (step table regions place).1⟩])) =
          byteLength (readBy done) + byteLength (step table regions place).1.consumed := by
        simp
      rw [Pass.output_runFrom _ hrest] at hreach
      simp only [keywordPass_step, hoffset] at hreach ⊢
      -- what is written after this step
      generalize hout : ((keywordPass table).runFrom
        (byteLength (readBy done) + byteLength (step table regions place).1.consumed) (step table regions place).2
        (place.advance (step table regions place).1.consumed.length)).output = out at hreach ⊢
      rcases step_cases table regions place with ⟨rule, htries, hrule, hstep⟩ | ⟨-, hstep⟩
      · have hreplacement := (hplain rule (Rule.mem_of_firstMatch? hrule)).2.1
        rw [hstep] at hreach ⊢
        have hnext := reaches_singles hreach rfl hreplacement
        rw [Cursor.advance_append rfl] at hnext
        refine ⟨_, _, hnext, ?_, ?_⟩
        · rw [turns_singles, Trace.turns_append_stay done ⟨_, _, regions, _⟩, hturns]
        · rw [cut_singles htries.1, Trace.cut_append_stay done (v := ⟨_, _, regions, _⟩) htries.1, hcut]
      · rw [hstep] at hreach hout ⊢
        obtain ⟨piece, hne, hpiece⟩ := step_nil_copies regions hrest
        have hsame := step_nil_output regions hplain hrest before
          (byteLength (readBy done) + byteLength (step [] regions place).1.consumed)
        rw [hout] at hsame
        have hnext := hreach.step (by simp [hpiece, Edit.written_copy, hne])
        rw [keywordPass_step, hsame, hpiece, Edit.written_copy, Edit.consumed_copy, Cursor.advance_append rfl] at hnext
        rw [hpiece]
        refine ⟨_, _, hnext, ?_, ?_⟩
        · rw [Trace.turns_append, Trace.turns_append]
          simp only [hturns]
        · rw [Trace.cut_append, Trace.cut_append]
          exact Stretch.map_content_cutStep hcut rfl rfl

/-! ## Whole runs -/

/-- The scan of the regions of a source makes the visits of the scan with a plain table, spellings spread out. -/
theorem regionScan_source (hplain : ∀ rule ∈ table, rule.Plain) (source : List Char) :
    regionScan source = ⟨((keywordPass table).run source).visits.flatMap spread, ((keywordPass table).run source).final⟩ ∧
      (regionScan source).turns = ((keywordPass table).run source).turns ∧
      (regionScan source).stretches = ((keywordPass table).run source).stretches := by
  obtain ⟨stop, hstop, hend⟩ := (keywordPass table).run_reaches source
  obtain ⟨hreach, hturns, hcut⟩ := reaches_spread hplain hend
  have hrun : regionScan source = _ := hreach.run_eq_of_nil hstop
  refine ⟨hrun, ?_, ?_⟩
  · rw [hrun, hturns]
  · rw [hrun, Trace.stretches, hcut, Trace.stretches]

/-- The scan of the regions of the rewritten text ends in the same regions, after the same turns and past the same
stretches. -/
theorem regionScan_output (hplain : ∀ rule ∈ table, rule.Plain) (source : List Char) :
    let trace := (keywordPass table).run source
    (regionScan trace.output).final = trace.final ∧ (regionScan trace.output).turns = trace.turns ∧
      (regionScan trace.output).stretches.map Stretch.content = trace.stretches.map Stretch.content := by
  obtain ⟨stop, hstop, hend⟩ := (keywordPass table).run_reaches source
  obtain ⟨done', before, hreach, hturns, hcut⟩ := reaches_output hplain hend
  have hout : ((keywordPass table).runFrom (byteLength (readBy ((keywordPass table).run source).visits))
      ((keywordPass table).run source).final stop).output = [] := by
    rw [(keywordPass table).runFrom_nil hstop]
    rfl
  have hrun : regionScan ((keywordPass table).run source).output = _ := hreach.run_eq_of_nil hout
  refine ⟨by rw [hrun], by rw [hrun, hturns], ?_⟩
  rw [hrun, Trace.stretches, Trace.stretches, List.map_reverse, List.map_reverse, hcut]

end Keywords

end HangulScript
