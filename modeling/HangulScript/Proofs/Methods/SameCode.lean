import Mathlib.Data.List.Forall2
import HangulScript.Proofs.Methods.Agreement

/-!
# The method pass over texts with the same code

The run over a text is one run after the other over its segments. Where the strings, comments and templates of two texts
have the same effect on the pass, it drops the same words from their code.
-/

namespace HangulScript

open Text Keywords

/-! ## What is left of a piece -/

section

variable {σ : Type} {pass : Pass σ} {text piece rest : List Char} {done later : List (Visit σ)} {state next : σ}
  {before before' : Option Char}

/-- What is left of a piece is what the visits over it wrote. -/
theorem survivors_piece (hdrops : ∀ state place, (pass.step state place).1.inserted = [])
    (h : pass.Reaches text done state ⟨before, piece ++ rest⟩)
    (h' : pass.Reaches text (done ++ later) next ⟨before', rest⟩) :
    survivors (droppedBy (pass.run text).visits) (byteLength (readBy done)) piece = writtenBy later := by
  have hall := survivors_run hdrops h'
  rw [readBy_append, writtenBy_append, survivors_append, survivors_run hdrops h, Nat.zero_add,
    h.readBy_piece h'] at hall
  exact List.append_cancel_left hall

/-- What is left of the text from a place on is what the run from there writes. -/
theorem survivors_rest (hdrops : ∀ state place, (pass.step state place).1.inserted = [])
    (h : pass.Reaches text done state ⟨before, rest⟩) :
    survivors (droppedBy (pass.run text).visits) (byteLength (readBy done)) rest =
      (pass.runFrom (byteLength (readBy done)) state ⟨before, rest⟩).output :=
  ((leads_survivors hdrops h).unique (pass.leads_runFrom (byteLength (readBy done)) state ⟨before, rest⟩)).1

end

theorem Keywords.Opened.solid {region : Region} {m : Char} (h : Opened region m) : isBlank m = false := by
  cases h with
  | hole => decide
  | delimiter h hlast => cases h <;> cases hlast <;> decide

namespace Methods

variable {state other : State} {text text' piece rest whole : List Char} {m : Char} {before : Option Char}
  {done : List (Visit State)} {regions next : OpenRegions} {segments segments' : List Segment}

/-! ## Over one segment -/

/-- No step over a text that ends in a delimiter sees what comes after it. -/
theorem step_append_of_last (hedge : Edge m) (state : State) (before : Option Char) (hlast : ∀ c ∈ piece.getLast?, c = m)
    (hne : piece ≠ []) :
    step state ⟨before, piece ++ rest⟩ = step state ⟨before, piece⟩ ∧
      ∀ c ∈ (piece.drop (step state ⟨before, piece⟩).1.consumed.length).getLast?, c = m := by
  obtain ⟨lead, c, rfl⟩ := (List.eq_nil_or_concat' piece).resolve_left hne
  obtain rfl := hlast c (by simp)
  refine ⟨?_, fun d hd => ?_⟩
  · rw [List.append_assoc]
    exact step_append_edge hedge.name hedge.ne_space state before lead rest
  · rw [List.getLast?_drop] at hd
    split_ifs at hd
    · cases hd
    · simpa using hd.symm

/-- The run over a segment makes the edits of the run over its text alone, comes to the state after that one and leaves of
the segment one between the same regions. -/
theorem reaches_past (h : Spans regions text next) (hturn : next.innermost.holdsCode ≠ regions.innermost.holdsCode)
    (hnested : regions.Nested) (hreach : methodPass.Reaches whole done state ⟨before, text ++ rest⟩)
    (hfree : before.any isNameChar = false) :
    let gone := droppedBy (methodPass.run whole).visits
    ∃ m visits, isNameChar m = false ∧ methodPass.Reaches whole (done ++ visits) (past state text) ⟨some m, rest⟩ ∧
      visits.map (·.edit) = (methodPass.runIn state text).edits ∧
      survivors gone (byteLength (readBy done)) (text ++ rest) =
        (methodPass.runIn state text).output ++ survivors gone (byteLength (readBy (done ++ visits))) rest ∧
      Spans regions (methodPass.runIn state text).output next := by
  intro gone
  have hdrops : ∀ state place, (methodPass.step state place).1.inserted = [] := edit_inserted
  obtain ⟨-, lead, m, rfl, hedge, -⟩ := h.edge hnested hturn
  have hlast : (lead ++ [m]).getLast? = some m := List.getLast?_concat
  have hends : ∀ c ∈ (lead ++ [m]).getLast?, c = m := by simp
  obtain ⟨visits, hreach', hedits, -⟩ := hreach.over_piece_free methodPass_seesFree
    (fun _ _ piece (hin : ∀ c ∈ piece.getLast?, c = m) hne => step_append_of_last hedge _ _ hin hne) hends hfree
  rw [hlast, Option.some_or] at hreach'
  have hleft : survivors gone (byteLength (readBy done)) (lead ++ [m]) = (methodPass.runIn state (lead ++ [m])).output := by
    rw [survivors_piece hdrops hreach hreach', writtenBy_eq, hedits, Trace.output_eq_edits]
  have hspans := h.survivors (loose_droppedBy whole) hreach.text_eq (Or.inr hturn)
  refine ⟨m, visits, hedge.name, hreach', hedits, ?_, hleft ▸ hspans⟩
  rw [survivors_append, hleft, readBy_append, hreach.readBy_piece hreach', byteLength_append (readBy done)]

/-- The same over the last segment. -/
theorem left_last (h : Spans regions text next) (hreach : methodPass.Reaches whole done state ⟨before, text⟩)
    (hfree : before.any isNameChar = false) :
    (methodPass.runFrom (byteLength (readBy done)) state ⟨before, text⟩).edits = (methodPass.runIn state text).edits ∧
      survivors (droppedBy (methodPass.run whole).visits) (byteLength (readBy done)) text =
        (methodPass.runIn state text).output ∧
      Spans regions (methodPass.runIn state text).output next := by
  have hdrops : ∀ state place, (methodPass.step state place).1.inserted = [] := edit_inserted
  obtain ⟨hedits, -⟩ := Pass.edits_runIn methodPass_seesFree hfree (byteLength (readBy done)) state text
  have hleft := survivors_rest hdrops hreach
  rw [Trace.output_eq_edits, hedits, ← Trace.output_eq_edits] at hleft
  have hwhole : whole = readBy done ++ (text ++ []) := by rw [List.append_nil]; exact hreach.text_eq
  exact ⟨hedits, hleft, hleft ▸ h.survivors (loose_droppedBy whole) hwhole (Or.inl rfl)⟩

/-! ## Over all segments -/

/-- The runs over the texts of segments by themselves, one after the other. -/
def runsOver : State → List Segment → List (Segment × Trace State)
  | _, [] => []
  | state, s :: later => (s, methodPass.runIn state s.text) :: runsOver (past state s.text) later

/-- What a run over a segment leaves of it. -/
def leftOf (run : Segment × Trace State) : Segment :=
  ⟨run.1.regions, run.2.output, run.1.next⟩

/-- What a run over a segment drops from it, if it is code. -/
def dropsOf (run : Segment × Trace State) : List Edit :=
  if run.1.regions.innermost.holdsCode then run.2.edits.filter (·.changes) else []

/-- What the pass drops from the code of a text. -/
def codeDrops (text : List Char) : List Edit :=
  (runsOver methodPass.start (regionScan text).segments).flatMap dropsOf

/-- The run over a text in segments is one run after the other, and leaves one segment after the other. -/
theorem left_of_segmented (h : Segmented regions text segments) (hnested : regions.Nested)
    (hreach : methodPass.Reaches whole done state ⟨before, text⟩) (hfree : before.any isNameChar = false) :
    (methodPass.runFrom (byteLength (readBy done)) state ⟨before, text⟩).edits =
        (runsOver state segments).flatMap (·.2.edits) ∧
      Segmented regions (survivors (droppedBy (methodPass.run whole).visits) (byteLength (readBy done)) text)
        ((runsOver state segments).map leftOf) := by
  induction h generalizing state before done with
  | @last regions next text h hstay =>
      obtain ⟨hedits, hleft, hspans⟩ := left_last h hreach hfree
      rw [hedits, hleft]
      exact ⟨by simp [runsOver], .last hspans hstay⟩
  | @turn regions next text rest segments h hturn hrest ih =>
      obtain ⟨hnested', -⟩ := h.edge hnested hturn
      obtain ⟨m, visits, hname, hpast, hedits, hleft, hspans⟩ := reaches_past h hturn hnested hreach hfree
      obtain ⟨hlater, hsegmented⟩ := ih hnested' hpast hname
      rw [hreach.edits_append hpast, hedits, hlater, hleft]
      exact ⟨rfl, .turn hspans hturn hsegmented⟩

/-- The pass makes its edits segment by segment, and what it leaves has the segments that it leaves. -/
theorem segments_bareMethods (text : List Char) :
    let runs := runsOver methodPass.start (regionScan text).segments
    (methodPass.run text).edits = runs.flatMap (·.2.edits) ∧
      (regionScan (bareMethods text)).segments = runs.map leftOf := by
  obtain ⟨hedits, hsegmented⟩ := left_of_segmented (segmented_runFrom 0 .bottom none text) OpenRegions.nested_bottom
    (.start : methodPass.Reaches text [] _ _) rfl
  refine ⟨hedits, ?_⟩
  rw [bareMethods_eq_survivors]
  exact hsegmented.segments_eq 0 none

/-! ## Two runs abreast -/

/-- The pass copies the delimiter at the end of a text. -/
theorem past_lastSolid_of_edge (hedge : Edge m) (hsolid : isBlank m = false) (hlast : text.getLast? = some m)
    (state : State) : (past state text).lastSolid = some m := by
  have hleads := leads_past state text
  have hout : (methodPass.runIn state text).output.getLast? = some m := by
    refine hleads.getLast?_eq (fun state place hrest hread => ?_) hlast
    rw [methodPass_step, step_fst] at hread ⊢
    rcases edit_cases state hrest with ⟨piece, -, hcopy⟩ | hdrops
    · rw [hcopy, Edit.consumed_copy] at hread
      rwa [hcopy, Edit.written_copy]
    · -- the word that is dropped ends in no delimiter
      have hlasts : functionWord.getLast? = some 'n' ∧ (functionWord ++ [' ']).getLast? = some ' ' := ⟨rfl, rfl⟩
      have hletter : isNameChar 'n' = true := by decide +kernel
      rw [Edit.consumed] at hread
      rcases hdrops.consumed_cases.2 with hremoved | hremoved <;>
        rw [hremoved, List.getLast?_append_of_ne_nil _ (by decide)] at hread
      · obtain rfl := Option.some.inj (hlasts.1.symm.trans hread)
        have hname := hedge.name
        rw [hletter] at hname
        cases hname
      · exact absurd (Option.some.inj (hlasts.2.symm.trans hread)).symm hedge.ne_space
  obtain ⟨lead, hlead⟩ := List.getLast?_eq_some_iff.1 hout
  rw [leads_lastSolid hleads, hlead, lastSolidAfter_concat, hsolid]
  rfl

/-- Two runs come to the beginning of a segment in states that agree, and in one and the same where a region has just been
opened. -/
structure Abreast (regions : OpenRegions) (state other : State) : Prop where
  agree : Agree state other
  opened : regions.innermost.holdsCode = false →
    state = other ∧ ∃ m, Opened regions.innermost m ∧ state.lastSolid = some m

theorem Agree.eq_of_lastSolid (h : Agree state other) (hsolid : state.lastSolid = other.lastSolid) : state = other := by
  obtain ⟨braces, classAhead, lastSolid⟩ := state
  obtain ⟨hframes, -⟩ := h
  cases hframes
  cases hsolid
  rfl

/-- Two runs stay abreast over segments with the same code, or with the same effect. -/
theorem Abreast.past (h : Abreast regions state other)
    (hlike : Segment.Like SameEffect ⟨regions, text, next⟩ ⟨regions, text', next⟩) (hspans : Spans regions text next)
    (hturn : next.innermost.holdsCode ≠ regions.innermost.holdsCode) (hnested : regions.Nested) :
    Abreast next (past state text) (past other text') := by
  cases hcode : regions.innermost.holdsCode with
  | true =>
      obtain rfl : text = text' := hlike.code hcode
      obtain ⟨-, lead, m, rfl, hedge, hopened⟩ := hspans.edge hnested hturn
      have hlast : (lead ++ [m]).getLast? = some m := List.getLast?_concat
      have hagree := (h.agree.runFrom 0 (Cursor.start (lead ++ [m]))).2
      refine ⟨hagree, fun hnone => ?_⟩
      have hsolid := (hopened hnone).solid
      have hstate := past_lastSolid_of_edge hedge hsolid hlast state
      have hother := past_lastSolid_of_edge hedge hsolid hlast other
      exact ⟨hagree.eq_of_lastSolid (hstate.trans hother.symm), m, hopened hnone, hstate⟩
  | false =>
      have hnext : next.innermost.holdsCode = true := by
        rw [hcode] at hturn
        simpa using hturn
      obtain ⟨rfl, m, hopened, hsolid⟩ := h.opened hcode
      refine ⟨hlike.other hcode hnext state m hopened hsolid, fun hnone => ?_⟩
      rw [hnext] at hnone
      cases hnone

/-- Two runs abreast leave the same of a segment of code, and drop the same from it. -/
theorem Abreast.left {related : Region → List Char → List Char → Prop} (h : Abreast regions state other)
    (hlike : Segment.Like related ⟨regions, text, next⟩ ⟨regions, text', next⟩) :
    let run := (Segment.mk regions text next, methodPass.runIn state text)
    let run' := (Segment.mk regions text' next, methodPass.runIn other text')
    Segment.Like AnyTexts (leftOf run) (leftOf run') ∧ dropsOf run = dropsOf run' := by
  intro run run'
  cases hcode : regions.innermost.holdsCode with
  | true =>
      obtain rfl : text = text' := hlike.code hcode
      have hedits : run.2.edits = run'.2.edits := (h.agree.runFrom 0 (Cursor.start text)).1
      have hleft : leftOf run = leftOf run' := by
        rw [leftOf, leftOf, Trace.output_eq_edits, Trace.output_eq_edits, hedits]
      exact ⟨hleft ▸ .of_code hcode, by rw [dropsOf, dropsOf, hedits]⟩
  | false =>
      refine ⟨.of_not_code hcode trivial, ?_⟩
      simp [run, run', dropsOf, hcode]

theorem Abreast.runsOver (habreast : Abreast regions state other) (h : Segmented regions text segments)
    (hlikes : List.Forall₂ (Segment.Like SameEffect) segments segments') (hnested : regions.Nested) :
    List.Forall₂ (Segment.Like AnyTexts) ((runsOver state segments).map leftOf) ((runsOver other segments').map leftOf) ∧
      (Methods.runsOver state segments).flatMap dropsOf = (Methods.runsOver other segments').flatMap dropsOf := by
  induction h generalizing state other segments' with
  | @last regions next text h hstay =>
      obtain ⟨⟨_, text', _⟩, later, hlike, hnone, rfl⟩ := List.forall₂_cons_left_iff.1 hlikes
      obtain rfl := List.forall₂_nil_left_iff.1 hnone
      obtain rfl : regions = _ := hlike.regions
      obtain rfl : next = _ := hlike.next
      obtain ⟨hleft, hdrops⟩ := habreast.left hlike
      exact ⟨.cons hleft .nil, congrArg (· ++ []) hdrops⟩
  | @turn regions next text rest segments h hturn hrest ih =>
      obtain ⟨⟨_, text', _⟩, later, hlike, hmore, rfl⟩ := List.forall₂_cons_left_iff.1 hlikes
      obtain rfl : regions = _ := hlike.regions
      obtain rfl : next = _ := hlike.next
      obtain ⟨hleft, hdrops⟩ := habreast.left hlike
      obtain ⟨hnested', -⟩ := h.edge hnested hturn
      obtain ⟨hlefts, hlater⟩ := ih (habreast.past hlike h hturn hnested) hmore hnested'
      exact ⟨.cons hleft hlefts, congrArg₂ (· ++ ·) hdrops hlater⟩

/-- From texts with the same code, of which the strings, comments and templates have the same effect, the pass drops the same
words in code, and leaves texts with the same code. -/
theorem bareMethods_sameCode (h : SameCode SameEffect text text') :
    SameCode AnyTexts (bareMethods text) (bareMethods text') ∧ codeDrops text = codeDrops text' := by
  have habreast : Abreast .bottom methodPass.start methodPass.start := ⟨.refl _, fun hnone => by cases hnone⟩
  rw [SameCode, (segments_bareMethods text).2, (segments_bareMethods text').2]
  exact habreast.runsOver (segmented_runFrom 0 .bottom none text) h OpenRegions.nested_bottom

end Methods

end HangulScript
