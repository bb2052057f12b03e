import HangulScript.Proofs.Pass.Pieces
import HangulScript.Proofs.Scan.Segments

/-!
# Segments that are rewritten

The scan with a plain table rewrites each segment of code by itself, whatever stands in the others, and leaves the others as
they are.
-/

namespace HangulScript

open Text Lexical

namespace Keywords

variable {table : List Rule} {source : List Char} {done : List (Visit OpenRegions)} {regions between next : OpenRegions}
  {before : Option Char} {piece text rest : List Char} {segments : List Segment}

/-! ## Plain text in a segment -/

theorem Spans.cases_of_ne_nil (h : Spans regions text next) (hne : text ≠ []) :
    ∃ piece more between, text = piece ++ more ∧ piece ≠ [] ∧ step [] regions ⟨none, text⟩ = (.copy piece, between) ∧
      (more = [] ∧ between = next ∧ next.innermost.holdsCode ≠ regions.innermost.holdsCode ∨
        between.innermost.holdsCode = regions.innermost.holdsCode ∧ Spans between more next) := by
  cases h with
  | done => exact absurd rfl hne
  | turn hpiece hstep hturn => exact ⟨_, [], _, (List.append_nil _).symm, hpiece, hstep, Or.inl ⟨rfl, rfl, hturn⟩⟩
  | stay hpiece hstep hstay h => exact ⟨_, _, _, rfl, hpiece, hstep, Or.inr ⟨hstay, h⟩⟩

theorem Spans.drop_plain (h : Spans regions (piece ++ text) next) (hplain : ∀ c ∈ piece, marksRegion c = false) :
    Spans regions text next := by
  induction piece with
  | nil => exact h
  | cons c piece ih =>
      obtain ⟨head, more, between, hread, -, hstep, hcases⟩ := h.cases_of_ne_nil (List.cons_ne_nil _ _)
      rw [List.cons_append, step_nil_of_not_marksRegion (hplain c List.mem_cons_self)] at hstep
      obtain ⟨hhead, rfl⟩ := Prod.mk.inj hstep
      obtain rfl : [c] = head := congrArg Edit.kept hhead
      obtain rfl : piece ++ text = more := (List.cons.inj hread).2
      rcases hcases with ⟨-, rfl, hturn⟩ | ⟨-, h⟩
      · exact absurd rfl hturn
      · exact ih h fun d hd => hplain d (List.mem_cons_of_mem c hd)

theorem Spans.plain_append (h : Spans regions text next) (hplain : ∀ c ∈ piece, marksRegion c = false) :
    Spans regions (piece ++ text) next := by
  induction piece with
  | nil => exact h
  | cons c piece ih =>
      rw [List.cons_append, ← List.singleton_append]
      exact .stay (List.cons_ne_nil c []) (step_nil_of_not_marksRegion (hplain c List.mem_cons_self)) rfl
        (ih fun d hd => hplain d (List.mem_cons_of_mem c hd))

/-! ## A segment by itself -/

/-- Out of code the scan copies a segment. -/
theorem Spans.idle (h : Spans regions text next) (hcode : regions.innermost.holdsCode = false) (before : Option Char) :
    (keywordPass table).Idle regions ⟨before, text⟩ := by
  have hstep : ∀ {regions : OpenRegions} {before text}, regions.innermost.holdsCode = false →
      step table regions ⟨before, text⟩ = step [] regions ⟨before, text⟩ := fun hcode => by
    refine step_eq_nil fun ⟨htries, _⟩ => ?_
    rw [hcode] at htries
    cases htries
  induction h generalizing before with
  | done => exact .done rfl
  | @turn regions next piece hne hpiece hturn =>
      have hcopy : step table regions ⟨before, piece ++ []⟩ = (.copy piece, next) := by
        rw [hstep hcode, List.append_nil, step_nil_before regions before none, hpiece]
      simpa using Pass.Idle.of_copy piece hcopy hne (.done rfl)
  | @stay regions between next piece text hne hpiece hstay h ih =>
      refine .of_copy piece ?_ hne (ih (hstay.trans hcode) _)
      rw [keywordPass_step, hstep hcode, step_nil_before regions before none, hpiece]

/-- What is written for a segment is a segment between the same regions. -/
theorem Spans.output (hplain : ∀ rule ∈ table, rule.Plain) (h : Spans regions text next) (offset : Nat)
    (before : Option Char) :
    Spans regions ((keywordPass table).runFrom offset regions ⟨before, text⟩).output next := by
  induction hn : text.length using Nat.strongRecOn generalizing regions text offset before with
  | ind n ih =>
      by_cases hnil : text = []
      · subst hnil
        rw [(keywordPass table).runFrom_nil rfl]
        exact h
      have hrest : (Cursor.mk before text).rest ≠ [] := hnil
      rw [Pass.output_runFrom _ hrest, keywordPass_step]
      rcases step_cases table regions ⟨before, text⟩ with ⟨rule, -, hrule, hstep⟩ | ⟨-, hstep⟩
      · obtain ⟨hspelling, hreplacement, -⟩ := hplain rule (Rule.mem_of_firstMatch? hrule)
        obtain ⟨more, hmore⟩ := Rule.spelling_prefix (Rule.applies_of_firstMatch? hrule)
        obtain rfl : rule.spelling ++ more = text := hmore
        have hlt := List.length_pos_iff.2 rule.spelling_ne_nil
        rw [List.length_append] at hn
        have hadvance : (Cursor.mk before (rule.spelling ++ more)).advance
            (Edit.mk [] rule.spelling rule.replacement).consumed.length = _ := Cursor.advance_append rfl
        rw [hstep, hadvance]
        exact .plain_append (ih more.length (by omega) (h.drop_plain hspelling) _ _ rfl) hreplacement
      · obtain ⟨piece, more, between, rfl, hne, hpiece, hcases⟩ := h.cases_of_ne_nil hnil
        rw [step_nil_before regions none before] at hpiece
        have hout := step_nil_output regions hplain hrest none
          (offset + byteLength (step [] regions ⟨before, piece ++ more⟩).1.consumed)
        rw [hstep]
        rw [hpiece, Edit.written_copy, Edit.consumed_copy, Cursor.advance_append rfl] at hout ⊢
        rcases hcases with ⟨rfl, rfl, hturn⟩ | ⟨hstay, h⟩
        · rw [(keywordPass table).runFrom_nil rfl] at hout ⊢
          simp only [Trace.output_eq, writtenBy_nil, List.append_nil] at hout ⊢
          exact .turn hne hout hturn
        · have hlt := List.length_pos_iff.2 hne
          rw [List.length_append] at hn
          exact .stay hne hout hstay (ih more.length (by omega) h _ _ rfl)

/-! ## The scan over its segments -/

/-- A text ends with a step into code or out of it, or all of it has been read. -/
def Inside (next regions : OpenRegions) (text : List Char) : Prop :=
  regions.Nested ∧ (text = [] ∧ regions = next ∨
    Spans regions text next ∧ next.innermost.holdsCode ≠ regions.innermost.holdsCode)

/-- No step over a segment sees what comes after it. -/
theorem Inside.step_append (hplain : ∀ rule ∈ table, rule.Plain) (h : Inside next regions text) (hne : text ≠ []) :
    step table regions ⟨before, text ++ rest⟩ = step table regions ⟨before, text⟩ ∧
      Inside next (step table regions ⟨before, text⟩).2
        (text.drop (step table regions ⟨before, text⟩).1.consumed.length) := by
  obtain ⟨hnested, ⟨hnil, -⟩ | ⟨hspans, hturn⟩⟩ := h
  · exact absurd hnil hne
  obtain ⟨-, lead, m, rfl, hedge, -⟩ := hspans.edge hnested hturn
  have hrest : (Cursor.mk before (lead ++ [m])).rest ≠ [] := hne
  have hnext : (step table regions ⟨before, lead ++ [m]⟩).2.Nested := (step_turn hnested hrest).nested hnested
  have hmatch : Rule.firstMatch? table ⟨before, lead ++ m :: rest⟩ = Rule.firstMatch? table ⟨before, lead ++ [m]⟩ :=
    (Rule.firstMatch?_append_stop hedge.name (notMem_spelling hplain hedge.marks) rfl).trans
      (Rule.firstMatch?_append_stop hedge.name (notMem_spelling hplain hedge.marks) rfl).symm
  have htries : ∀ {text rule}, Rule.firstMatch? table ⟨before, text⟩ = some rule →
      regions.innermost.holdsCode = true → TriesRules regions ⟨before, text⟩ := fun hrule hcode =>
    triesRules_of_applies (hplain _ (Rule.mem_of_firstMatch? hrule)) hcode (Rule.applies_of_firstMatch? hrule)
  rw [List.append_assoc, List.singleton_append]
  rcases step_cases table regions ⟨before, lead ++ [m]⟩ with ⟨rule, ⟨hcode, -⟩, hrule, hstep⟩ | ⟨hnone, hstep⟩
  · obtain ⟨more, hmore⟩ := Rule.spelling_prefix (Rule.applies_of_firstMatch? hrule)
    have hrule' := hmatch.trans hrule
    rw [hstep] at hnext ⊢
    refine ⟨step_of_firstMatch (htries hrule' hcode) hrule', hnext, Or.inr ⟨?_, hturn⟩⟩
    obtain hmore : rule.spelling ++ more = lead ++ [m] := hmore
    rw [← hmore] at hspans ⊢
    rw [Edit.consumed, List.nil_append, List.drop_left]
    exact hspans.drop_plain (hplain rule (Rule.mem_of_firstMatch? hrule)).1
  · have hnil : step table regions ⟨before, lead ++ m :: rest⟩ = step [] regions ⟨before, lead ++ m :: rest⟩ := by
      refine step_eq_nil fun htries' => ?_
      obtain ⟨hcode, -⟩ := htries'
      rw [hmatch]
      refine Option.eq_none_iff_forall_not_mem.2 fun rule hrule => ?_
      rw [hnone (htries hrule hcode)] at hrule
      cases hrule
    obtain ⟨piece, more, between, hread, hpiece, hspan, hcases⟩ := hspans.cases_of_ne_nil hne
    rw [step_nil_before regions none before] at hspan
    rw [hnil, hstep]
    rw [hstep] at hnext
    rw [hspan] at hnext ⊢
    have hrest : lead ++ m :: rest = piece ++ (more ++ rest) := by
      rw [← List.append_assoc, ← hread, List.append_assoc, List.singleton_append]
    rw [hrest, hread, Edit.consumed_copy, List.drop_left]
    rw [hread] at hspan
    rcases hcases with ⟨rfl, rfl, -⟩ | ⟨hstay, h⟩
    · exact ⟨step_nil_turn hspan hpiece hturn before _, hnext, Or.inl ⟨rfl, rfl⟩⟩
    · have hturn' : next.innermost.holdsCode ≠ between.innermost.holdsCode := hstay ▸ hturn
      exact ⟨step_nil_head hspan hpiece (List.head?_append_of_ne_nil more (h.ne_nil hturn')), hnext,
        Or.inr ⟨h, hturn'⟩⟩

/-- A segment with what the scan by itself makes of its text. -/
def rewritten (table : List Rule) (s : Segment) : Segment :=
  ⟨s.regions, ((keywordPass table).runIn s.regions s.text).output, s.next⟩

theorem Inside.eq_of_nil (h : Inside next regions []) : regions = next := by
  obtain ⟨-, ⟨-, heq⟩ | ⟨hspans, hturn⟩⟩ := h
  · exact heq
  · exact absurd rfl (hspans.ne_nil hturn)

/-- The run over a text in segments is one run after the other, and writes one segment after the other. -/
theorem Segmented.rewritten (hplain : ∀ rule ∈ table, rule.Plain) (h : Segmented regions text segments)
    (hnested : regions.Nested) (hreach : (keywordPass table).Reaches source done regions ⟨before, text⟩)
    (hfree : before.any isNameChar = false) :
    let later := (keywordPass table).runFrom (byteLength (readBy done)) regions ⟨before, text⟩
    later.edits = segments.flatMap (fun s => ((keywordPass table).runIn s.regions s.text).edits) ∧
      Segmented regions later.output (segments.map (rewritten table)) := by
  induction h generalizing done before with
  | @last regions next text h hstay =>
      obtain ⟨hedits, -⟩ := Pass.edits_runIn (keywordPass_seesFree table) hfree (byteLength (readBy done)) regions text
      dsimp only
      rw [Trace.output_eq_edits, hedits, ← Trace.output_eq_edits]
      exact ⟨by simp, .last (h.output hplain 0 none) hstay⟩
  | @turn regions next text rest segments h hturn hrest ih =>
      obtain ⟨hnested', lead, m, hlast, hedge, -⟩ := h.edge hnested hturn
      have hinside : Inside next regions text := ⟨hnested, Or.inr ⟨h, hturn⟩⟩
      obtain ⟨visits, hreach', hedits, hend⟩ := hreach.over_piece_free (keywordPass_seesFree table)
        (fun _ _ _ hin hne => Inside.step_append hplain hin hne) hinside hfree
      have hlastChar : text.getLast?.or before = some m := by rw [hlast, List.getLast?_concat, Option.some_or]
      rw [hend.eq_of_nil, hlastChar] at hreach'
      obtain ⟨hlater, hsegmented⟩ := ih hnested' hreach' hedge.name
      have hsplit := hreach.edits_append hreach'
      rw [hedits] at hsplit
      dsimp only at hlater hsegmented ⊢
      rw [Trace.output_eq_edits, hsplit, hlater, List.flatMap_append, List.flatMap_cons, List.map_cons,
        ← Trace.output_eq_edits, ← hlater, ← Trace.output_eq_edits]
      exact ⟨rfl, .turn (h.output hplain 0 none) hturn hsegmented⟩

/-- The scan with a plain table makes its edits segment by segment, and what it writes has the segments that it writes. -/
theorem segments_output (hplain : ∀ rule ∈ table, rule.Plain) (source : List Char) :
    ((keywordPass table).run source).edits =
        (regionScan source).segments.flatMap (fun s => ((keywordPass table).runIn s.regions s.text).edits) ∧
      (regionScan ((keywordPass table).run source).output).segments =
        (regionScan source).segments.map (rewritten table) := by
  obtain ⟨hedits, hsegmented⟩ := (segmented_runFrom 0 .bottom none source).rewritten hplain OpenRegions.nested_bottom
    (.start : (keywordPass table).Reaches source [] _ _) rfl
  exact ⟨hedits, hsegmented.segments_eq 0 none⟩

theorem Segmented.spans (h : Segmented regions text segments) : ∀ s ∈ segments, Spans s.regions s.text s.next := by
  induction h with
  | last h => simpa using h
  | turn h _ _ ih => exact List.forall_mem_cons.2 ⟨h, ih⟩

theorem spans_segments (source : List Char) : ∀ s ∈ (regionScan source).segments, Spans s.regions s.text s.next :=
  (segmented_runFrom 0 .bottom none source).spans

/-- The edits in a segment that change its text. -/
def changesIn (table : List Rule) (s : Segment) : List Edit :=
  ((keywordPass table).runIn s.regions s.text).edits.filter (·.changes)

theorem rewritten_of_not_code (table : List Rule) {s : Segment} (hspans : Spans s.regions s.text s.next)
    (hcode : s.regions.innermost.holdsCode = false) : changesIn table s = [] ∧ (rewritten table s).text = s.text := by
  obtain ⟨hout, hchanges⟩ := (hspans.idle hcode none : (keywordPass table).Idle _ _).runFrom 0
  exact ⟨(Trace.changes_eq_edits _).symm.trans (congrArg (List.map (·.edit)) hchanges), hout⟩

end Keywords

/-! ## Two texts with the same code -/

open Keywords

variable {related : Region → List Char → List Char → Prop} {a b : Segment} {segments segments' : List Segment}
  {table : List Rule} {source other : List Char}

theorem Segment.Like.rewritten (table : List Rule) (h : Segment.Like related a b) (ha : Spans a.regions a.text a.next)
    (hb : Spans b.regions b.text b.next) :
    changesIn table a = changesIn table b ∧ Segment.Like related (rewritten table a) (rewritten table b) := by
  cases hcode : a.regions.innermost.holdsCode with
  | true =>
      obtain rfl : a = b := by
        obtain ⟨regions, text, next⟩ := a
        obtain ⟨rfl, rfl, htext, -⟩ := h
        obtain rfl := htext hcode
        rfl
      exact ⟨rfl, .of_code hcode⟩
  | false =>
      obtain ⟨hchanges, htext⟩ := rewritten_of_not_code table ha hcode
      obtain ⟨hchanges', htext'⟩ := rewritten_of_not_code table hb (h.regions ▸ hcode)
      refine ⟨hchanges.trans hchanges'.symm, h.regions, h.next, fun hsome => ?_, ?_⟩
      · rw [Keywords.rewritten, hcode] at hsome
        cases hsome
      · rw [htext, htext']
        exact h.other

theorem like_rewritten (table : List Rule) (h : List.Forall₂ (Segment.Like related) segments segments')
    (hspans : ∀ s ∈ segments, Spans s.regions s.text s.next) (hspans' : ∀ s ∈ segments', Spans s.regions s.text s.next) :
    segments.flatMap (changesIn table) = segments'.flatMap (changesIn table) ∧
      List.Forall₂ (Segment.Like related) (segments.map (rewritten table)) (segments'.map (rewritten table)) := by
  induction h with
  | nil => exact ⟨rfl, .nil⟩
  | cons hlike _ ih =>
      obtain ⟨hspan, hspans⟩ := List.forall_mem_cons.1 hspans
      obtain ⟨hspan', hspans'⟩ := List.forall_mem_cons.1 hspans'
      obtain ⟨hchanges, hlike⟩ := hlike.rewritten table hspan hspan'
      obtain ⟨hlater, hlikes⟩ := ih hspans hspans'
      rw [List.flatMap_cons, List.flatMap_cons, hchanges, hlater]
      exact ⟨rfl, .cons hlike hlikes⟩

/-- In texts with the same code the same rules are put in, one after the other, and what is written has the same code. -/
theorem SameCode.rewritten (hplain : ∀ rule ∈ table, rule.Plain) (h : SameCode related source other) :
    ((keywordPass table).run source).changes.map (·.edit) = ((keywordPass table).run other).changes.map (·.edit) ∧
      SameCode related ((keywordPass table).run source).output ((keywordPass table).run other).output := by
  obtain ⟨hedits, hsegments⟩ := segments_output hplain source
  obtain ⟨hedits', hsegments'⟩ := segments_output hplain other
  obtain ⟨hchanges, hlike⟩ := like_rewritten table h (spans_segments source) (spans_segments other)
  rw [SameCode, hsegments, hsegments', Trace.changes_eq_edits, Trace.changes_eq_edits, hedits, hedits',
    List.filter_flatMap, List.filter_flatMap]
  exact ⟨hchanges, hlike⟩

end HangulScript
