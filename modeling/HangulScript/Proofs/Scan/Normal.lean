import HangulScript.Proofs.Conversion.Regions
import HangulScript.Proofs.Keyword.Locality
import HangulScript.Proofs.Scan.Completeness

/-!
# What is written has no keywords

Where a rule matches what the scan wrote, it matches the text there too, since a spelling that is written was copied.
The scan would have put in its replacement, so a second scan has nothing to replace.
-/

namespace HangulScript

open Text

namespace Keywords

variable {table : List Rule} {rule other : Rule} {regions final : OpenRegions} {place : Cursor}
  {before : Option Char} {out piece rest word after : List Char}

/-! ## Words that are written -/

theorem leads_head (hplain : ∀ rule ∈ table, rule.Plain) (hsettles : ∀ rule ∈ table, Rule.Settles table rule)
    (h : (keywordPass table).Leads regions place out final) :
    out.head?.any isNameChar = place.rest.head?.any isNameChar := by
  cases h with
  | done hrest => rw [hrest]
  | step hrest h =>
      rw [keywordPass_step]
      rcases step_cases table regions place with ⟨rule, -, hrule, hstep⟩ | ⟨-, hstep⟩
      · have hmem := Rule.mem_of_firstMatch? hrule
        obtain ⟨rest, hread⟩ := Rule.spelling_prefix (Rule.applies_of_firstMatch? hrule)
        rw [hstep, ← hread, Edit.written, List.nil_append, List.head?_append_of_ne_nil _ rule.spelling_ne_nil,
          List.head?_append_of_ne_nil _ (hplain rule hmem).2.2]
        exact (hsettles rule hmem).first
      · obtain ⟨piece, hne, hpiece⟩ := step_nil_copies regions hrest
        obtain ⟨rest, hread⟩ := Pass.consumed_prefix (keywordPass []) regions place
        rw [keywordPass_step, hpiece, Edit.consumed_copy] at hread
        rw [hstep, hpiece, Edit.written_copy, ← hread, List.head?_append_of_ne_nil _ hne,
          List.head?_append_of_ne_nil _ hne]

/-- A written word that has no replacement's first character was copied. -/
theorem leads_word (hplain : ∀ rule ∈ table, rule.Plain) (hsettles : ∀ rule ∈ table, Rule.Settles table rule)
    (hword : ∀ rule ∈ table, ∀ c ∈ rule.replacement.head?, c ∉ word)
    (h : (keywordPass table).Leads regions place (word ++ after) final) : GoesOn word after place.rest := by
  generalize hout : word ++ after = out at h
  induction h generalizing word with
  | done hrest =>
      obtain ⟨rfl, rfl⟩ := List.append_eq_nil_iff.1 hout
      exact ⟨[], hrest, rfl⟩
  | @step regions final place out hrest h ih =>
      cases word with
      | nil =>
          obtain rfl : after = _ := hout
          exact ⟨place.rest, rfl, leads_head hplain hsettles (.step hrest h)⟩
      | cons c word =>
          rw [keywordPass_step] at hout h ih
          rcases step_cases table regions place with ⟨rule, -, hrule, hstep⟩ | ⟨-, hstep⟩
          · -- the word would begin with the replacement
            have hmem := Rule.mem_of_firstMatch? hrule
            obtain ⟨d, replacement, hd⟩ := List.exists_cons_of_ne_nil (hplain rule hmem).2.2
            rw [hstep, Edit.written, hd] at hout
            obtain rfl : c = d := (List.cons.inj hout).1
            exact absurd List.mem_cons_self (hword rule hmem c (by rw [hd]; rfl))
          · obtain ⟨piece, hne, hpiece⟩ := step_nil_copies regions hrest
            obtain ⟨rest, hread⟩ := Pass.consumed_prefix (keywordPass []) regions place
            rw [keywordPass_step, hpiece, Edit.consumed_copy] at hread
            rw [hstep, hpiece, Edit.written_copy] at hout
            rw [hstep, hpiece, Edit.consumed_copy, Cursor.advance_append hread.symm] at ih
            rw [← hread]
            refine goesOn_of_piece hout fun more hcut hmore => ih (fun rule hrule d hd hmem => ?_) hmore
            exact hword rule hrule d hd (hcut ▸ List.mem_append_right piece hmem)

theorem applies_of_leads (hplain : ∀ rule ∈ table, rule.Plain) (hsettles : ∀ rule ∈ table, Rule.Settles table rule)
    (h : (keywordPass table).Leads regions place out final)
    (hfree : before.any isNameChar = place.before.any isNameChar)
    (hmem : other ∈ table) (happlies : other.applies ⟨before, out⟩ = true) : other.applies place = true := by
  obtain ⟨⟨after, rfl⟩, halone⟩ := Rule.applies_iff.1 happlies
  have hfront : ∀ rule ∈ table, ∀ c ∈ rule.replacement.head?, c ∉ other.spelling := fun rule hrule =>
    (hsettles rule hrule).front other hmem
  obtain ⟨rest, hread, hafter⟩ := leads_word hplain hsettles hfront h
  refine Rule.applies_iff.2 ⟨⟨rest, hread.symm⟩, fun hstands => ?_⟩
  obtain ⟨hbefore, hfreeAfter⟩ := halone hstands
  rw [Cursor.advance_append rfl, Cursor.freeAfter, hafter] at hfreeAfter
  rw [Cursor.advance_append hread, Cursor.freeBefore, ← hfree]
  exact ⟨hbefore, hfreeAfter⟩

/-! ## A second scan -/

/-- Over text that takes part in no delimiter and where no spelling begins the scan goes on in the same regions. -/
theorem idle_append (hplain : ∀ c ∈ piece, marksRegion c = false)
    (hnone : ∀ rule ∈ table, ∀ c ∈ piece, rule.spelling.head? ≠ some c)
    (h : (keywordPass table).Idle regions ⟨piece.getLast?.or before, rest⟩) :
    (keywordPass table).Idle regions ⟨before, piece ++ rest⟩ := by
  induction piece generalizing before with
  | nil => simpa using h
  | cons c piece ih =>
      have hstep : step table regions ⟨before, c :: (piece ++ rest)⟩ = (.copy [c], regions) := by
        have hmiss : Rule.firstMatch? table ⟨before, c :: (piece ++ rest)⟩ = none :=
          Rule.firstMatch?_eq_none_of_head fun rule hrule => hnone rule hrule c List.mem_cons_self
        rw [step_eq_nil fun _ => hmiss, step_nil_of_not_marksRegion (hplain c List.mem_cons_self)]
      refine .of_copy [c] hstep (List.cons_ne_nil _ _) (ih (fun d hd => hplain d (List.mem_cons_of_mem c hd))
        (fun rule hrule d hd => hnone rule hrule d (List.mem_cons_of_mem c hd)) ?_)
      rwa [List.getLast?_singleton, Option.some_or, ← getLast?_cons_or]

/-- Where the scan copies, it makes the same step over what it writes. -/
theorem step_output (hplain : ∀ rule ∈ table, rule.Plain) (hsettles : ∀ rule ∈ table, Rule.Settles table rule)
    (hrest : place.rest ≠ []) (hnone : TriesRules regions place → Rule.firstMatch? table place = none)
    (h : (keywordPass table).Leads (step [] regions place).2
      (place.advance (step [] regions place).1.consumed.length) out final)
    (hfree : before.any isNameChar = place.before.any isNameChar) :
    step table regions ⟨before, (step [] regions place).1.written ++ out⟩ = step [] regions place := by
  have hsame := step_nil_output regions hplain hrest before 0
  rw [((keywordPass table).leads_runFrom 0 _ _).unique h |>.1] at hsame
  have hstep : (keywordPass table).step regions place = step [] regions place := step_eq_nil hnone
  have hall := Pass.Leads.step hrest (hstep.symm ▸ h)
  -- a rule that matches here matches the text, where none does
  rw [step_eq_nil (firstMatch?_eq_none_of_applies hplain hnone fun rule hmem happlies => ?_), hsame]
  exact applies_of_leads hplain hsettles hall hfree hmem (hstep.symm ▸ happlies)

/-- Over what it wrote the scan copies everything. -/
theorem idle_output (hplain : ∀ rule ∈ table, rule.Plain) (hsettles : ∀ rule ∈ table, Rule.Settles table rule)
    (h : (keywordPass table).Leads regions place out final)
    (hfree : before.any isNameChar = place.before.any isNameChar) : (keywordPass table).Idle regions ⟨before, out⟩ := by
  induction h generalizing before with
  | done => exact .done rfl
  | @step regions final place out hrest h ih =>
      rw [keywordPass_step] at h ih ⊢
      rcases step_cases table regions place with ⟨rule, htries, hrule, hstep⟩ | ⟨hnone, hstep⟩
      · have hmem := Rule.mem_of_firstMatch? hrule
        obtain ⟨-, hreplacement, hne⟩ := hplain rule hmem
        obtain ⟨rest, hread⟩ := Rule.spelling_prefix (Rule.applies_of_firstMatch? hrule)
        rw [hstep] at ih ⊢
        refine idle_append hreplacement (fun other hother => (hsettles rule hmem).inside other hother) (ih ?_)
        simp only [Edit.written, Edit.consumed, List.nil_append]
        rw [Cursor.advance_append hread.symm, getLast?_or_of_ne_nil hne, getLast?_or_of_ne_nil rule.spelling_ne_nil]
        exact (hsettles rule hmem).last
      · obtain ⟨piece, hne, hpiece⟩ := step_nil_copies regions hrest
        obtain ⟨rest, hread⟩ := Pass.consumed_prefix (keywordPass []) regions place
        rw [hstep] at h ih ⊢
        have hsame := step_output hplain hsettles hrest hnone h hfree
        rw [keywordPass_step, hpiece, Edit.consumed_copy] at hread
        rw [hpiece, Edit.consumed_copy, Cursor.advance_append hread.symm] at ih
        rw [hpiece, Edit.written_copy] at hsame ⊢
        refine .of_copy piece (hsame.trans (Prod.ext hpiece rfl)) hne (ih ?_)
        rw [getLast?_or_of_ne_nil hne, getLast?_or_of_ne_nil hne]

theorem regionScan_of_idle (hplain : ∀ rule ∈ table, rule.Plain)
    (h : (keywordPass table).Idle .bottom (Cursor.start out)) : regionScan out = (keywordPass table).run out := by
  have hcopies : ∀ v ∈ ((keywordPass table).run out).visits, spread v = [v] := fun v hv => by
    have hchanges := List.filter_eq_nil_iff.1 h.run.2 v hv
    rw [spread, if_neg hchanges]
  rw [(regionScan_source hplain out).1, List.flatMap_congr hcopies, List.flatMap_singleton']

end Keywords

theorem idle_keyed (source : List Char) :
    (keywordPass keywordTable).Idle .bottom (Cursor.start (keyed source)) :=
  Keywords.idle_output Rule.keywordTable_plain Rule.keywordTable_settles ((keywordPass keywordTable).leads_run source) rfl

/-- In the text that the keyword pass leaves, a scan comes by no keyword in code, and the pass leaves that text as it
is. -/
theorem keywords_settle {source : List Char} (hbraces : source.count '{' < Region.maxHoleDepth) :
    ∃ out trace, replaceKeywords source = .ok out ∧ traceKeywords keywordTable out = .ok trace ∧
      traceKeywords [] out = .ok trace ∧
      (∀ v ∈ trace.visits, v.state.innermost.holdsCode = true →
        ∀ rule ∈ keywordTable, rule.appliesAt out v.offset = false) ∧
      trace.changes = [] ∧ replaceKeywords out = .ok out := by
  have hplain := Rule.keywordTable_plain
  have hkeyed : (keyed source).count '{' < Region.maxHoleDepth := by rwa [count_keyed]
  have hidle := idle_keyed source
  obtain ⟨hout, hchanges⟩ := hidle.run
  have hscan := Keywords.regionScan_of_idle hplain hidle
  refine ⟨_, _, replaceKeywords_ok hbraces, Keywords.traceKeywords_ok keywordTable hkeyed, ?_, ?_, hchanges, ?_⟩
  · rw [← hscan]
    exact regionScan_ok hkeyed
  · intro v hv hcode rule hmem
    refine Bool.eq_false_iff.2 fun happlies => ?_
    rw [← hscan] at hv
    have hat : rule.applies v.place = true := by
      simpa [Rule.appliesAt, Keywords.visits_placed hv] using happlies
    obtain ⟨w, hw, -⟩ := Keywords.changes_of_applies hplain Rule.keywordTable_apart hv hcode hmem hat
    rw [hchanges] at hw
    cases hw
  · rw [replaceKeywords_ok hkeyed, keyed, hout]

/-- A console idiom between syllables, an export with two words and keywords in a hole and a string. -/
def gluedSpellings : List Char :=
  "가콘솔.출력함수 내보내기 기본내보내기 함수(`$\x7b함수\x7d`, \"함수\")".toList

theorem keywords_settle_glued :
    gluedSpellings.count '{' < Region.maxHoleDepth ∧
      ∃ out trace, replaceKeywords gluedSpellings = .ok out ∧ traceKeywords keywordTable out = .ok trace ∧
        traceKeywords [] out = .ok trace ∧
        (∀ v ∈ trace.visits, v.state.innermost.holdsCode = true →
          ∀ rule ∈ keywordTable, rule.appliesAt out v.offset = false) ∧
        trace.changes = [] ∧ replaceKeywords out = .ok out :=
  ⟨by decide, keywords_settle (by decide)⟩

end HangulScript
