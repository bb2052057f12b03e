import HangulScript.Proofs.Scan.Locality
import HangulScript.Proofs.Scan.Nesting
import HangulScript.Proofs.Scan.Survivors

/-!
# Segments

The scan of the regions cuts a text into segments that are code and segments that are none, in turn. The delimiter that ends
a segment belongs to it, so each segment is cut in the same way wherever it stands.
-/

namespace HangulScript

open Text Lexical

/-- A part of a text that is all code or no code, up to and with the delimiter that ends it, between the regions that are
open before it and after it. -/
structure Segment where
  regions : OpenRegions
  text : List Char
  next : OpenRegions
deriving DecidableEq, Repr

/-- The first segment begins with more text. -/
def Segment.lengthen (regions : OpenRegions) (piece : List Char) : List Segment → List Segment
  | [] => []
  | segment :: later => ⟨regions, piece ++ segment.text, segment.next⟩ :: later

/-- A step that stays in code, or out of it, lengthens the segment that comes next. Any other step is the end of one. -/
def Segment.add (s : Visit OpenRegions × OpenRegions) (later : List Segment) : List Segment :=
  if s.2.innermost.holdsCode = s.1.state.innermost.holdsCode then lengthen s.1.state s.1.edit.consumed later
  else ⟨s.1.state, s.1.edit.consumed, s.2⟩ :: later

/-- The segments of the text that was read, in order. -/
def Trace.segments (trace : Trace OpenRegions) : List Segment :=
  trace.steps.foldr Segment.add [⟨trace.final, [], trace.final⟩]

/-- Two segments between the same regions, with the same text if they are code. If they are none and end, their texts are
related. -/
structure Segment.Like (related : Region → List Char → List Char → Prop) (a b : Segment) : Prop where
  regions : a.regions = b.regions
  next : a.next = b.next
  code : a.regions.innermost.holdsCode = true → a.text = b.text
  other : a.regions.innermost.holdsCode = false → a.next.innermost.holdsCode = true →
    related a.regions.innermost a.text b.text

/-- Any two texts are related. -/
def AnyTexts (_ : Region) (_ _ : List Char) : Prop :=
  True

/-- Two texts with the same code and the same regions in the same places, of which the texts of strings, comments and
templates are related. -/
def SameCode (related : Region → List Char → List Char → Prop) (source other : List Char) : Prop :=
  List.Forall₂ (Segment.Like related) (regionScan source).segments (regionScan other).segments

theorem Segment.Like.of_code {related : Region → List Char → List Char → Prop} {s : Segment}
    (hcode : s.regions.innermost.holdsCode = true) : Segment.Like related s s := by
  refine ⟨rfl, rfl, fun _ => rfl, fun hnone => ?_⟩
  rw [hcode] at hnone
  cases hnone

theorem Segment.Like.of_not_code {related : Region → List Char → List Char → Prop} {regions next : OpenRegions}
    {text other : List Char} (hcode : regions.innermost.holdsCode = false)
    (h : related regions.innermost text other) : Segment.Like related ⟨regions, text, next⟩ ⟨regions, other, next⟩ := by
  refine ⟨rfl, rfl, fun hsome => ?_, fun _ _ => h⟩
  rw [hcode] at hsome
  cases hsome

theorem Trace.steps_cons {σ : Type} (v : Visit σ) (later : List (Visit σ)) (final : σ) :
    (Trace.mk (v :: later) final).steps = (v, (Trace.mk later final).stateAt later) :: (Trace.mk later final).steps := by
  cases later <;> rfl

theorem Pass.stateAt_runFrom {σ : Type} (pass : Pass σ) (offset : Nat) (state : σ) (place : Cursor) :
    (pass.runFrom offset state place).stateAt (pass.runFrom offset state place).visits = state := by
  by_cases hrest : place.rest = []
  · rw [pass.runFrom_nil hrest]
    rfl
  · rw [pass.runFrom_of_ne_nil hrest]
    rfl

namespace Keywords

variable {table : List Rule} {regions between next : OpenRegions} {before before' : Option Char} {c m : Char}
  {piece text rest more : List Char} {segments : List Segment}

/-! ## Steps without a table -/

theorem step_nil_before (regions : OpenRegions) (before before' : Option Char) (text : List Char) :
    step [] regions ⟨before, text⟩ = step [] regions ⟨before', text⟩ := by
  cases text with
  | nil => unfold step codeStep holeStep; cases regions.innermost <;> rfl
  | cons c text => rw [step_nil_cons, step_nil_cons]

/-- Such a step looks no further than the character after what it reads. -/
theorem step_nil_head (hstep : step [] regions ⟨before, piece ++ rest⟩ = (.copy piece, next)) (hne : piece ≠ [])
    (hhead : more.head? = rest.head?) : step [] regions ⟨before', piece ++ more⟩ = (.copy piece, next) := by
  obtain ⟨c, piece, rfl⟩ := List.exists_cons_of_ne_nil hne
  rw [List.cons_append, step_nil_cons] at hstep ⊢
  cases piece with
  | nil =>
      rw [List.nil_append] at hstep ⊢
      have hpair : regions.pairing? c more = regions.pairing? c rest := by
        rw [OpenRegions.pairing?, OpenRegions.pairing?, hhead]
      rw [hpair]
      cases hrest : regions.pairing? c rest with
      | none => rw [hrest] at hstep; exact hstep
      | some pair =>
          rw [hrest] at hstep
          cases rest with
          | nil => cases hrest
          | cons d rest => cases congrArg (·.1.kept.length) hstep
  | cons d piece =>
      simp only [List.cons_append, OpenRegions.pairing?, List.head?_cons, Option.bind_some, List.take_succ_cons,
        List.take_zero] at hstep ⊢
      exact hstep

/-- A step into code or out of it does not even look there. -/
theorem step_nil_turn (hstep : step [] regions ⟨before, piece ++ rest⟩ = (.copy piece, next)) (hne : piece ≠ [])
    (hturn : next.innermost.holdsCode ≠ regions.innermost.holdsCode) (before' : Option Char) (more : List Char) :
    step [] regions ⟨before', piece ++ more⟩ = (.copy piece, next) := by
  obtain ⟨c, piece, rfl⟩ := List.exists_cons_of_ne_nil hne
  rw [List.cons_append, step_nil_cons] at hstep ⊢
  cases piece with
  | nil =>
      rw [List.nil_append] at hstep ⊢
      have hafter : regions.after c = next := by
        cases hrest : regions.pairing? c rest with
        | none => rw [hrest] at hstep; exact congrArg Prod.snd hstep
        | some pair =>
            rw [hrest] at hstep
            cases rest with
            | nil => cases hrest
            | cons d rest => cases congrArg (·.1.kept.length) hstep
      have htakes : takesNext c = false := Bool.eq_false_iff.2 fun htakes => by
        rw [after_of_takesNext htakes] at hafter
        exact hturn (hafter ▸ rfl)
      rw [OpenRegions.pairing?_of_not_takesNext more htakes, hafter]
  | cons d piece =>
      simp only [List.cons_append, OpenRegions.pairing?, List.head?_cons, Option.bind_some, List.take_succ_cons,
        List.take_zero] at hstep ⊢
      exact hstep

/-! ## Reading a segment -/

/-- The scan of the regions reads a text by itself without coming into code or out of it, unless its last step does. -/
inductive Spans : OpenRegions → List Char → OpenRegions → Prop
  | done {regions : OpenRegions} : Spans regions [] regions
  | turn {regions next : OpenRegions} {piece : List Char} (hne : piece ≠ [])
      (hstep : step [] regions ⟨none, piece⟩ = (.copy piece, next))
      (hturn : next.innermost.holdsCode ≠ regions.innermost.holdsCode) : Spans regions piece next
  | stay {regions between next : OpenRegions} {piece text : List Char} (hne : piece ≠ [])
      (hstep : step [] regions ⟨none, piece ++ text⟩ = (.copy piece, between))
      (hstay : between.innermost.holdsCode = regions.innermost.holdsCode) (h : Spans between text next) :
      Spans regions (piece ++ text) next

/-- A text in its segments: all but the last end with a step into code or out of it. -/
inductive Segmented : OpenRegions → List Char → List Segment → Prop
  | last {regions next : OpenRegions} {text : List Char} (h : Spans regions text next)
      (hstay : next.innermost.holdsCode = regions.innermost.holdsCode) :
      Segmented regions text [⟨regions, text, next⟩]
  | turn {regions next : OpenRegions} {text rest : List Char} {segments : List Segment}
      (h : Spans regions text next) (hturn : next.innermost.holdsCode ≠ regions.innermost.holdsCode)
      (hrest : Segmented next rest segments) : Segmented regions (text ++ rest) (⟨regions, text, next⟩ :: segments)

theorem Spans.ne_nil (h : Spans regions text next)
    (hturn : next.innermost.holdsCode ≠ regions.innermost.holdsCode) : text ≠ [] := by
  cases h with
  | done => exact absurd rfl hturn
  | turn hne => exact hne
  | stay hne => exact List.append_ne_nil_of_left_ne_nil hne _

theorem segments_nil (offset : Nat) (regions : OpenRegions) {place : Cursor} (hrest : place.rest = []) :
    ((keywordPass []).runFrom offset regions place).segments = [⟨regions, [], regions⟩] := by
  rw [(keywordPass []).runFrom_nil hrest]
  rfl

theorem segments_step (offset : Nat) (hne : piece ≠ [])
    (hstep : step [] regions ⟨before, piece ++ rest⟩ = (.copy piece, next)) :
    ((keywordPass []).runFrom offset regions ⟨before, piece ++ rest⟩).segments =
      Segment.add (⟨offset, ⟨before, piece ++ rest⟩, regions, .copy piece⟩, next)
        ((keywordPass []).runFrom (offset + byteLength piece) next ⟨piece.getLast?.or before, rest⟩).segments := by
  have hrest : (Cursor.mk before (piece ++ rest)).rest ≠ [] := List.append_ne_nil_of_left_ne_nil hne rest
  rw [(keywordPass []).runFrom_of_ne_nil hrest]
  simp only [keywordPass_step, hstep, Edit.consumed_copy]
  rw [Cursor.advance_append rfl]
  rw [Trace.segments, Trace.steps_cons, List.foldr_cons, Pass.stateAt_runFrom]
  rfl

theorem Segmented.stay (hne : piece ≠ []) (hstep : step [] regions ⟨before, piece ++ rest⟩ = (.copy piece, between))
    (hstay : between.innermost.holdsCode = regions.innermost.holdsCode) (h : Segmented between rest segments) :
    Segmented regions (piece ++ rest) (Segment.lengthen regions piece segments) := by
  cases h with
  | last h hlast => exact .last (.stay hne (step_nil_head hstep hne rfl) hstay h) (hlast.trans hstay)
  | @turn _ _ text rest _ h hturn hrest =>
      have hhead : text.head? = (text ++ rest).head? := (List.head?_append_of_ne_nil text (h.ne_nil hturn)).symm
      rw [← List.append_assoc]
      exact .turn (.stay hne (step_nil_head hstep hne hhead) hstay h) (hstay ▸ hturn) hrest

/-- The scan of the regions cuts a text into its segments. -/
theorem segmented_runFrom (offset : Nat) (regions : OpenRegions) (before : Option Char) (text : List Char) :
    Segmented regions text ((keywordPass []).runFrom offset regions ⟨before, text⟩).segments := by
  induction hn : text.length using Nat.strongRecOn generalizing offset regions before text with
  | ind n ih =>
      by_cases hnil : text = []
      · have hrest : (Cursor.mk before text).rest = [] := hnil
        rw [segments_nil offset regions hrest, hnil]
        exact .last .done rfl
      have hrest : (Cursor.mk before text).rest ≠ [] := hnil
      obtain ⟨piece, hne, hpiece⟩ := step_nil_copies regions hrest
      obtain ⟨rest, hread⟩ := Pass.consumed_prefix (keywordPass []) regions ⟨before, text⟩
      rw [keywordPass_step, hpiece, Edit.consumed_copy] at hread
      obtain rfl : piece ++ rest = text := hread
      obtain ⟨next, hstep⟩ : ∃ next, step [] regions ⟨before, piece ++ rest⟩ = (.copy piece, next) :=
        ⟨_, Prod.ext hpiece rfl⟩
      have hlt := List.length_pos_iff.2 hne
      rw [List.length_append] at hn
      have htail := ih rest.length (by omega) (offset + byteLength piece) next (piece.getLast?.or before) rest rfl
      rw [segments_step offset hne hstep, Segment.add, Edit.consumed_copy]
      split_ifs with hturn
      · exact htail.stay hne hstep hturn
      · exact .turn (.turn hne (by simpa using step_nil_turn hstep hne hturn none []) hturn) hturn htail

theorem Spans.segments_append (h : Spans regions text next)
    (hturn : next.innermost.holdsCode ≠ regions.innermost.holdsCode) (offset : Nat) (before : Option Char)
    (rest : List Char) :
    ∃ offset' before', ((keywordPass []).runFrom offset regions ⟨before, text ++ rest⟩).segments =
      ⟨regions, text, next⟩ :: ((keywordPass []).runFrom offset' next ⟨before', rest⟩).segments := by
  induction h generalizing offset before with
  | done => exact absurd rfl hturn
  | @turn regions next piece hne hstep hturn =>
      have halone : step [] regions ⟨none, piece ++ []⟩ = (.copy piece, next) := by rwa [List.append_nil]
      have hstep' := step_nil_turn halone hne hturn before rest
      refine ⟨offset + byteLength piece, piece.getLast?.or before, ?_⟩
      rw [segments_step offset hne hstep', Segment.add, if_neg hturn, Edit.consumed_copy]
  | @stay regions between next piece text hne hstep hstay h ih =>
      have hturn' : next.innermost.holdsCode ≠ between.innermost.holdsCode := hstay ▸ hturn
      have hstep' : step [] regions ⟨before, piece ++ (text ++ rest)⟩ = (.copy piece, between) :=
        step_nil_head hstep hne (List.head?_append_of_ne_nil text (h.ne_nil hturn'))
      obtain ⟨offset', before', hsegments⟩ := ih hturn' (offset + byteLength piece) (piece.getLast?.or before)
      refine ⟨offset', before', ?_⟩
      rw [List.append_assoc, segments_step offset hne hstep', Segment.add, if_pos hstay, hsegments, Edit.consumed_copy]
      rfl

theorem Spans.segments_last (h : Spans regions text next)
    (hstay : next.innermost.holdsCode = regions.innermost.holdsCode) (offset : Nat) (before : Option Char) :
    ((keywordPass []).runFrom offset regions ⟨before, text⟩).segments = [⟨regions, text, next⟩] := by
  induction h generalizing offset before with
  | done => exact segments_nil offset _ rfl
  | turn _ _ hturn => exact absurd hstay hturn
  | @stay regions between next piece text hne hstep hbetween h ih =>
      rw [segments_step offset hne (step_nil_head hstep hne rfl), Segment.add, if_pos hbetween,
        ih (hstay.trans hbetween.symm), Edit.consumed_copy]
      rfl

/-- Only one way of cutting a text is the one of the scan. -/
theorem Segmented.segments_eq (h : Segmented regions text segments) (offset : Nat) (before : Option Char) :
    ((keywordPass []).runFrom offset regions ⟨before, text⟩).segments = segments := by
  induction h generalizing offset before with
  | last h hstay => exact h.segments_last hstay offset before
  | @turn _ _ text rest _ h hturn _ ih =>
      obtain ⟨offset', before', hsegments⟩ := h.segments_append hturn offset before rest
      rw [hsegments, ih]

/-! ## Where a segment ends -/

/-- The last character before what stands in a region: the last one of its delimiter, or the brace that ends a hole. -/
inductive Opened : Region → Char → Prop
  | delimiter {region : Region} {piece : List Char} {m : Char} (h : Opens piece region) (hlast : piece.getLast? = some m) :
      Opened region m
  | hole : Opened .template '}'

/-- A text goes on with nothing that began before this character. -/
structure Edge (m : Char) : Prop where
  name : isNameChar m = false
  marks : marksRegion m = true
  ne_space : m ≠ ' '

/-- The characters in which delimiters end. -/
def delimiterEnds : List Char :=
  ['"', '\'', '`', '/', '*', '{', '}', '\n']

theorem edge_of_mem (h : m ∈ delimiterEnds) : Edge m := by
  have hall : delimiterEnds.all (fun m => !isNameChar m && marksRegion m && m != ' ') = true := by decide +kernel
  have hm := List.all_eq_true.1 hall m h
  simp only [Bool.and_eq_true, Bool.not_eq_true', bne_iff_ne] at hm
  exact ⟨hm.1.1, hm.1.2, hm.2⟩

theorem step_nil_piece (hstep : step [] regions ⟨before, piece ++ rest⟩ = (.copy piece, next)) (hne : piece ≠ [])
    (hnested : regions.Nested) : regions.Turn piece next := by
  have hrest : (Cursor.mk before (piece ++ rest)).rest ≠ [] := List.append_ne_nil_of_left_ne_nil hne rest
  have hturn : regions.Turn (step [] regions ⟨before, piece ++ rest⟩).1.consumed _ := step_turn hnested hrest
  rwa [hstep, Edit.consumed_copy] at hturn

theorem edge_of_turn (h : regions.Turn piece next)
    (hturn : next.innermost.holdsCode ≠ regions.innermost.holdsCode) :
    ∃ m, piece.getLast? = some m ∧ Edge m ∧ (next.innermost.holdsCode = false → Opened next.innermost m) := by
  cases h with
  | stay | opening | closing => exact absurd rfl hturn
  | opens _ hopen =>
      obtain ⟨m, hlast, hm⟩ : ∃ m, piece.getLast? = some m ∧ m ∈ delimiterEnds := by
        cases hopen <;> exact ⟨_, rfl, by decide⟩
      exact ⟨m, hlast, edge_of_mem hm, fun _ => .delimiter hopen hlast⟩
  | hole => exact ⟨'{', rfl, edge_of_mem (by decide), fun hnone => by cases hnone⟩
  | closed => exact ⟨'}', rfl, edge_of_mem (by decide), fun _ => .hole⟩
  | @ends region _ outer hends =>
      -- no region that is ended holds code, so what is below it does
      have hregion : region.holdsCode = false := by cases hends <;> rfl
      have hcode : (OpenRegions.mk outer).innermost.holdsCode ≠ false := fun hnext => hturn (hnext.trans hregion.symm)
      obtain ⟨m, hlast, hm⟩ : ∃ m, piece.getLast? = some m ∧ m ∈ delimiterEnds := by
        cases hends <;> exact ⟨_, rfl, by decide⟩
      exact ⟨m, hlast, edge_of_mem hm, fun hnext => absurd hnext hcode⟩

/-- A step into code or out of it ends with a delimiter. -/
theorem Spans.edge (h : Spans regions text next) (hnested : regions.Nested)
    (hturn : next.innermost.holdsCode ≠ regions.innermost.holdsCode) :
    next.Nested ∧ ∃ lead m, text = lead ++ [m] ∧ Edge m ∧
      (next.innermost.holdsCode = false → Opened next.innermost m) := by
  induction h with
  | done => exact absurd rfl hturn
  | @turn regions next piece hne hstep hturn =>
      have halone : step [] regions ⟨none, piece ++ []⟩ = (.copy piece, next) := by rwa [List.append_nil]
      have hpiece := step_nil_piece halone hne hnested
      obtain ⟨m, hlast, hedge⟩ := edge_of_turn hpiece hturn
      obtain ⟨lead, hlead⟩ := List.getLast?_eq_some_iff.1 hlast
      exact ⟨hpiece.nested hnested, lead, m, hlead, hedge⟩
  | @stay regions between next piece text hne hstep hstay h ih =>
      obtain ⟨hnext, lead, m, rfl, hedge⟩ := ih ((step_nil_piece hstep hne hnested).nested hnested) (hstay ▸ hturn)
      exact ⟨hnext, piece ++ lead, m, (List.append_assoc ..).symm, hedge⟩

/-! ## A segment that loses characters -/

/-- Where a text loses characters loosely, what is left of a segment is a segment between the same regions. -/
theorem Spans.survivors {gone : Nat → Bool} {whole before : List Char} (hloose : Loose gone whole)
    (h : Spans regions text next) (hwhole : whole = before ++ (text ++ rest))
    (hend : rest = [] ∨ next.innermost.holdsCode ≠ regions.innermost.holdsCode) :
    Spans regions (HangulScript.survivors gone (byteLength before) text) next := by
  induction h generalizing before with
  | done => exact .done
  | @turn regions next piece hne hstep hturn =>
      have halone : step [] regions ⟨none, piece ++ []⟩ = (.copy piece, next) := by rwa [List.append_nil]
      have hread := step_nil_turn halone hne hturn none rest
      have hrest : (Cursor.mk none (piece ++ rest)).rest ≠ [] := List.append_ne_nil_of_left_ne_nil hne rest
      obtain ⟨read, -, hcopy, hcases⟩ := step_survivors hloose hwhole hrest regions none
      rw [hread] at hcopy hcases
      obtain rfl : piece = read := congrArg Edit.kept hcopy
      rcases hcases with ⟨-, hstay⟩ | ⟨hkept, -⟩
      · exact absurd (congrArg (·.innermost.holdsCode) hstay) hturn
      · rw [hkept]
        exact .turn hne hstep hturn
  | @stay regions between next piece text hne hstep hstay h ih =>
      have hend' : rest = [] ∨ next.innermost.holdsCode ≠ between.innermost.holdsCode := hstay ▸ hend
      have hhead : ∀ {left more : List Char}, Spans between left next → (rest = [] → more = []) →
          (left ++ more).head? = left.head? := fun {left more} hleft hmore => by
        rcases hend' with hnil | hturn
        · rw [hmore hnil, List.append_nil]
        · exact List.head?_append_of_ne_nil left (hleft.ne_nil hturn)
      have hread : step [] regions ⟨none, piece ++ (text ++ rest)⟩ = (.copy piece, between) :=
        step_nil_head hstep hne (hhead h id)
      rw [List.append_assoc] at hwhole
      have hrest : (Cursor.mk none (piece ++ (text ++ rest))).rest ≠ [] := List.append_ne_nil_of_left_ne_nil hne _
      obtain ⟨read, -, hcopy, hcases⟩ := step_survivors hloose hwhole hrest regions none
      rw [hread] at hcopy hcases
      obtain rfl : piece = read := congrArg Edit.kept hcopy
      have hmore : whole = before ++ piece ++ (text ++ rest) := by rw [hwhole, List.append_assoc]
      have hlater := ih hmore hend'
      rw [byteLength_append] at hlater
      rw [survivors_append]
      rcases hcases with ⟨hgone, hsame⟩ | ⟨hkept, hleft⟩
      · obtain rfl : between = regions := hsame
        rwa [hgone, List.nil_append]
      · rw [survivors_append, hkept, survivors_append] at hleft
        rw [hkept]
        exact .stay hne (step_nil_head hleft hne
          (hhead hlater fun hnil => by rw [hnil]; rfl).symm) hstay hlater

end Keywords

end HangulScript
