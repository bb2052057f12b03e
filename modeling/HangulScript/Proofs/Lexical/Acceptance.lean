import HangulScript.Proofs.Lexical.Demand
import HangulScript.Proofs.Region.Sound
import HangulScript.Proofs.Scan.Modes

/-!
# What the scan accepts

Every step of the scan keeps what the open regions demand of the rest of the text. So the scan ends with nothing open
exactly where the grammar derives the text as code.
-/

namespace HangulScript

open Text

namespace Lexical

variable {P : List Char → Prop} {regions : OpenRegions} {region : Region} {outer : List Region} {text rest : List Char}
  {c d : Char}

/-! ## One step -/

/-- In code a character that begins no pair opens `next` or stands for itself; braces apart, whatever is counted. -/
theorem code_opening_step (hslash : c = '/' → rest.head? ≠ some '/' ∧ rest.head? ≠ some '*')
    (hbrace : c ≠ '{' ∧ c ≠ '}') :
    ∃ next, (∀ regions : OpenRegions, (regions.opening c).inner = next ++ regions.inner) ∧
      ∀ braces a b, rest = a ++ b →
        (Code braces (c :: a) ↔ ∃ x y, a = x ++ y ∧ Closes (· = []) next x ∧ Code braces y) := by
  have hregion : ∀ {region}, Opens [c] region → ∀ braces a b, rest = a ++ b →
      (Code braces (c :: a) ↔ ∃ x y, a = x ++ y ∧ Closes (· = []) [region] x ∧ Code braces y) := by
    intro region hopen braces a _ _
    simp only [closes_singleton]
    exact code_opens_iff hopen
  by_cases hdouble : c = '"'
  · subst hdouble
    exact ⟨[.doubleQuoted], fun _ => rfl, hregion .doubleQuoted⟩
  by_cases hsingle : c = '\''
  · subst hsingle
    exact ⟨[.singleQuoted], fun _ => rfl, hregion .singleQuoted⟩
  by_cases htemplate : c = '`'
  · subst htemplate
    exact ⟨[.template], fun _ => rfl, hregion .template⟩
  refine ⟨[], fun regions => by simp [OpenRegions.opening, hdouble, hsingle, htemplate], fun braces a b hrest => ?_⟩
  have hplain : Plain c a := by
    refine ⟨by simp [hdouble, hsingle, htemplate, hbrace], fun hc => ?_⟩
    cases a with
    | nil => simp
    | cons d a =>
        have := hslash hc
        rwa [hrest] at this
  rw [code_plain_iff hplain]
  constructor
  · exact fun h => ⟨[], a, rfl, rfl, h⟩
  · rintro ⟨_, y, rfl, rfl, h⟩
    exact h

theorem slash_of_pairing? (hcode : regions.innermost.holdsCode = true) (hpair : regions.pairing? c rest = none)
    (hslash : c = '/') : rest.head? ≠ some '/' ∧ rest.head? ≠ some '*' := by
  subst hslash
  cases rest with
  | nil => simp
  | cons d rest =>
      have hnone : regions.afterPair? '/' d = none := hpair
      rw [Keywords.afterPair?_of_holdsCode hcode] at hnone
      split_ifs at hnone with hline hblock
      simp_all

theorem closes_stay (hstep : ∀ a b, rest = a ++ b → (Ends region (c :: a) ↔ Ends region a)) :
    Closes P (region :: outer) (c :: rest) ↔ Closes P (region :: outer) rest :=
  closes_step_one [region] fun a b hrest => (hstep a b hrest).trans closes_singleton.symm

theorem closes_string (quote : Char) (hquote : quote ≠ '\\') (hends : ∀ a, Ends region a ↔ StringTail quote a)
    (hescape : c = '\\' → rest = []) :
    Closes P (region :: outer) (c :: rest) ↔
      Closes P (if c = quote then OpenRegions.pop ⟨region :: outer⟩ else ⟨region :: outer⟩).inner rest := by
  by_cases hc : c = quote
  · subst hc
    rw [if_pos rfl]
    exact closes_step_one [] fun a _ _ => (hends _).trans (stringTail_quote_iff hquote)
  · rw [if_neg hc]
    refine closes_stay fun a b hrest => ?_
    rw [hends, hends]
    by_cases hbackslash : c = '\\'
    · subst hbackslash
      obtain ⟨rfl, -⟩ := List.append_eq_nil_iff.1 (hrest.symm.trans (hescape rfl))
      exact iff_of_false (not_stringTail_backslash hquote) not_stringTail_nil
    · exact stringTail_char_iff hbackslash hc

theorem nil_of_pairing? (hpair : regions.pairing? c rest = none) (hall : ∀ d, (regions.afterPair? c d).isSome = true) :
    rest = [] := by
  cases rest with
  | nil => rfl
  | cons d rest =>
      have hnone : regions.afterPair? c d = none := hpair
      have := hall d
      rw [hnone] at this
      cases this

theorem closes_template (hpair : (OpenRegions.mk (.template :: outer)).pairing? c rest = none) :
    Closes P (.template :: outer) (c :: rest) ↔
      Closes P (if c = '`' then OpenRegions.pop ⟨.template :: outer⟩ else ⟨.template :: outer⟩).inner rest := by
  by_cases hc : c = '`'
  · subst hc
    rw [if_pos rfl]
    exact closes_step_one [] fun a _ _ => templateTail_close_iff
  · rw [if_neg hc]
    refine closes_stay fun a b hrest => ?_
    by_cases hbackslash : c = '\\'
    · subst hbackslash
      obtain rfl := nil_of_pairing? hpair fun d => rfl
      obtain ⟨rfl, -⟩ := List.append_eq_nil_iff.1 hrest.symm
      exact iff_of_false not_templateTail_backslash not_templateTail_nil
    · refine templateTail_char_iff hbackslash hc ?_
      rintro ⟨rfl, hhead⟩
      obtain ⟨a, rfl⟩ := List.head?_eq_some_iff.1 hhead
      subst hrest
      cases hpair

theorem closes_line : Closes P (.lineComment :: outer) (c :: rest) ↔
    Closes P (if c = '\n' then OpenRegions.pop ⟨.lineComment :: outer⟩ else ⟨.lineComment :: outer⟩).inner rest := by
  by_cases hc : c = '\n'
  · subst hc
    rw [if_pos rfl]
    exact closes_step_one [] fun a _ _ => lineTail_newline_iff
  · rw [if_neg hc]
    exact closes_stay fun a _ _ => lineTail_char_iff hc

theorem closes_block (hpair : (OpenRegions.mk (.blockComment :: outer)).pairing? c rest = none) :
    Closes P (.blockComment :: outer) (c :: rest) ↔ Closes P (.blockComment :: outer) rest := by
  refine closes_stay fun a b hrest => blockTail_char_iff ?_
  rintro ⟨rfl, hhead⟩
  obtain ⟨a, rfl⟩ := List.head?_eq_some_iff.1 hhead
  subst hrest
  cases hpair

theorem closes_hole {depth : Nat} (hdepth : depth ≠ 0)
    (hpair : (OpenRegions.mk (.hole depth :: outer)).pairing? c rest = none) :
    Closes P (.hole depth :: outer) (c :: rest) ↔
      Closes P ((OpenRegions.mk (.hole depth :: outer)).after c).inner rest := by
  by_cases hopen : c = '{'
  · subst hopen
    exact closes_step_one [.hole (depth + 1)] fun a _ _ =>
      (ends_hole_opening hdepth).trans closes_singleton.symm
  by_cases hclose : c = '}'
  · subst hclose
    match depth, hdepth with
    | 1, _ => exact closes_step_one [] fun a _ _ => ends_hole_closing_one
    | depth + 2, _ =>
        exact closes_step_one [.hole (depth + 1)] fun a _ _ =>
          ends_hole_closing.trans closes_singleton.symm
  · obtain ⟨next, hnext, hcode⟩ := code_opening_step (slash_of_pairing? rfl hpair) ⟨hopen, hclose⟩
    have hafter : ((OpenRegions.mk (.hole depth :: outer)).after c).inner = next ++ [.hole depth] ++ outer := by
      have hopening : (OpenRegions.mk (.hole depth :: outer)).after c =
          (OpenRegions.mk (.hole depth :: outer)).opening c := by
        simp [OpenRegions.after, OpenRegions.innermost, hopen, hclose]
      rw [hopening, hnext, List.append_assoc, List.singleton_append]
    rw [hafter]
    exact closes_step_one _ (ends_hole_iff [c] next (by simpa using Ne.symm hclose) (hcode _))

theorem closes_bottom (hpair : OpenRegions.bottom.pairing? c rest = none) :
    Code none (c :: rest) ↔ Closes (Code none) (OpenRegions.bottom.after c).inner rest := by
  by_cases hbrace : c = '{' ∨ c = '}'
  · have hstay : OpenRegions.bottom.after c = .bottom := by rcases hbrace with rfl | rfl <;> rfl
    rw [hstay]
    exact code_none_brace_iff hbrace
  · obtain ⟨next, hnext, hcode⟩ := code_opening_step (slash_of_pairing? rfl hpair) (not_or.1 hbrace)
    have hafter : (OpenRegions.bottom.after c).inner = next ++ [] := hnext .bottom
    rw [hafter, closes_append]
    exact hcode none rest [] (by simp)

theorem closes_after (hsound : regions.Sound) (hbottom : regions = .bottom → P = Code none)
    (hpair : regions.pairing? c rest = none) :
    Closes P regions.inner (c :: rest) ↔ Closes P (regions.after c).inner rest := by
  rcases regions with ⟨_ | ⟨region, outer⟩⟩
  · obtain rfl := hbottom rfl
    exact closes_bottom hpair
  · obtain ⟨hcode, hzero⟩ := hsound region List.mem_cons_self
    cases region with
    | code => exact absurd rfl hcode
    | hole depth => exact closes_hole (fun h => hzero (by rw [h])) hpair
    | singleQuoted =>
        refine closes_string '\'' (by decide) (fun _ => Iff.rfl) ?_
        rintro rfl
        exact nil_of_pairing? hpair fun d => rfl
    | doubleQuoted =>
        refine closes_string '"' (by decide) (fun _ => Iff.rfl) ?_
        rintro rfl
        exact nil_of_pairing? hpair fun d => rfl
    | template => exact closes_template hpair
    | lineComment => exact closes_line
    | blockComment => exact closes_block hpair

theorem closes_escape (hfirst : ¬ Ends region ['\\'])
    (hescape : ∀ a, Ends region ('\\' :: d :: a) ↔ Ends region a) :
    Closes P (region :: outer) ('\\' :: d :: rest) ↔ Closes P (region :: outer) rest :=
  closes_step_two [region] hfirst fun a => (hescape a).trans closes_singleton.symm

theorem closes_afterPair {after : OpenRegions} (hsound : regions.Sound) (hbottom : regions = .bottom → P = Code none)
    (hpair : regions.afterPair? c d = some after) :
    Closes P regions.inner (c :: d :: rest) ↔ Closes P after.inner rest := by
  rcases regions with ⟨_ | ⟨region, outer⟩⟩
  · obtain rfl := hbottom rfl
    rw [Keywords.afterPair?_of_holdsCode rfl] at hpair
    split_ifs at hpair with hline hblock <;> cases hpair
    · obtain ⟨rfl, rfl⟩ := hline
      exact code_opens_iff .lineComment
    · obtain ⟨rfl, rfl⟩ := hblock
      exact code_opens_iff .blockComment
  · obtain ⟨hcode, -⟩ := hsound region List.mem_cons_self
    cases region with
    | code => exact absurd rfl hcode
    | hole depth =>
        rw [Keywords.afterPair?_of_holdsCode rfl] at hpair
        split_ifs at hpair with hline hblock <;> cases hpair
        · obtain ⟨rfl, rfl⟩ := hline
          exact closes_step_two [.lineComment, .hole depth] (not_ends_hole_singleton (by decide)) fun a =>
            ends_hole_opens .lineComment (by decide)
        · obtain ⟨rfl, rfl⟩ := hblock
          exact closes_step_two [.blockComment, .hole depth] (not_ends_hole_singleton (by decide)) fun a =>
            ends_hole_opens .blockComment (by decide)
    | singleQuoted =>
        obtain ⟨rfl, rfl⟩ : c = '\\' ∧ ⟨.singleQuoted :: outer⟩ = after := by
          simpa [OpenRegions.afterPair?, OpenRegions.innermost] using hpair
        exact closes_escape (not_stringTail_backslash (by decide)) fun a => stringTail_escape_iff (by decide)
    | doubleQuoted =>
        obtain ⟨rfl, rfl⟩ : c = '\\' ∧ ⟨.doubleQuoted :: outer⟩ = after := by
          simpa [OpenRegions.afterPair?, OpenRegions.innermost] using hpair
        exact closes_escape (not_stringTail_backslash (by decide)) fun a => stringTail_escape_iff (by decide)
    | template =>
        simp only [OpenRegions.afterPair?, OpenRegions.innermost, List.headD_cons] at hpair
        split_ifs at hpair with hescape hhole <;> cases hpair
        · subst hescape
          exact closes_escape not_templateTail_backslash fun a => templateTail_escape_iff
        · obtain ⟨rfl, rfl⟩ := hhole
          refine closes_step_two [.hole 1, .template] (fun h => ?_) fun a => ends_template_hole
          exact not_templateTail_nil ((templateTail_char_iff (by decide) (by decide) (by simp)).1 h)
    | lineComment => cases hpair
    | blockComment =>
        obtain ⟨⟨rfl, rfl⟩, rfl⟩ : (c = '*' ∧ d = '/') ∧ OpenRegions.pop ⟨.blockComment :: outer⟩ = after := by
          simpa [OpenRegions.afterPair?, OpenRegions.innermost] using hpair
        refine closes_step_two [] (fun h => ?_) fun a => blockTail_end_iff
        exact not_blockTail_nil ((blockTail_char_iff (by simp)).1 h)

/-- A step of the scan of the regions keeps the demand. -/
theorem closes_scan_step {place : Cursor} (hsound : regions.Sound) (hbottom : regions = .bottom → P = Code none)
    (hrest : place.rest ≠ []) :
    Closes P regions.inner place.rest ↔
      Closes P (Keywords.step [] regions place).2.inner
        (place.rest.drop (Keywords.step [] regions place).1.consumed.length) := by
  rcases Keywords.step_nil_cases regions hrest with
    ⟨c, rest, hplace, hpair, hstep⟩ | ⟨c, d, rest, after, hplace, hpair, hstep⟩
  · rw [hstep, hplace]
    simpa using closes_after hsound hbottom hpair
  · rw [hstep, hplace]
    simpa using closes_afterPair hsound hbottom hpair

theorem sound_scan_step {place : Cursor} (hsound : regions.Sound) (hrest : place.rest ≠ []) :
    (Keywords.step [] regions place).2.Sound := by
  rcases Keywords.step_nil_cases regions hrest with ⟨c, rest, -, -, hstep⟩ | ⟨c, d, rest, after, -, hpair, hstep⟩
  · rw [hstep]
    exact hsound.after c
  · rw [hstep]
    exact hsound.afterPair hpair

/-! ## Whole texts -/

theorem reaches_closes {done : List (Visit OpenRegions)} {place : Cursor}
    (h : (keywordPass []).Reaches text done regions place) :
    regions.Sound ∧ (Code none text ↔ Closes (Code none) regions.inner place.rest) := by
  induction h with
  | start => exact ⟨fun region hregion => (List.not_mem_nil hregion).elim, Iff.rfl⟩
  | step _ hrest ih =>
      obtain ⟨hsound, hcode⟩ := ih
      exact ⟨sound_scan_step hsound hrest, hcode.trans (closes_scan_step hsound (fun _ => rfl) hrest)⟩

theorem regionScan_final_iff (text : List Char) : (regionScan text).final = .bottom ↔ Code none text := by
  obtain ⟨stop, hstop, hend⟩ := (keywordPass []).run_reaches text
  obtain ⟨-, hcode⟩ := reaches_closes hend
  rw [hcode, hstop, closes_nil_iff]
  constructor
  · exact fun h => congrArg OpenRegions.inner h
  · exact fun h => congrArg OpenRegions.mk h

theorem open?_eq_none_iff : regions.open? = none ↔ regions = .bottom := by
  rcases regions with ⟨_ | ⟨region, outer⟩⟩ <;> simp [OpenRegions.open?, OpenRegions.bottom]

/-- The scan ends with nothing open exactly on the texts that the grammar derives as code. -/
theorem scan_closes_iff {source : List Char} (hbraces : source.count '{' < Region.maxHoleDepth) :
    ∃ trace, traceKeywords keywordTable source = .ok trace ∧ (trace.final = .bottom ↔ Code none source) ∧
      (trace.final.open? = none ↔ Code none source) := by
  have hfinal : ((keywordPass keywordTable).run source).final = .bottom ↔ Code none source := by
    rw [← regionScan_final_iff, (Keywords.regionScan_source Rule.keywordTable_plain source).1]
  exact ⟨_, Keywords.traceKeywords_ok keywordTable hbraces, hfinal, open?_eq_none_iff.trans hfinal⟩

/-- Comments that look closed too early, an escape before a quote, a dollar sign before a hole and a hole in a hole. -/
def nestedText : List Char :=
  "/*/ */ \"\\\"\" // '\n`$$\x7b\x7b함수 `\\`$\x7b참\x7d`\x7d\x7d` \x7d 4 / 2".toList

theorem scan_closes_iff_nested :
    nestedText.count '{' < Region.maxHoleDepth ∧
      ∃ trace, traceKeywords keywordTable nestedText = .ok trace ∧ (trace.final = .bottom ↔ Code none nestedText) ∧
        (trace.final.open? = none ↔ Code none nestedText) :=
  ⟨by decide, scan_closes_iff (by decide)⟩

example : Code none nestedText := by
  rw [← regionScan_final_iff, regionScan, Pass.run_eq_runWithin]
  decide +kernel

/-- The star that opens a comment does not close it. -/
example : ¬ Code none "/*/".toList := by
  rw [← regionScan_final_iff, regionScan, Pass.run_eq_runWithin]
  decide +kernel

end Lexical

end HangulScript
