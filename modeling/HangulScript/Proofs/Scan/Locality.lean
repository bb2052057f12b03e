import HangulScript.Proofs.Keyword.Locality
import HangulScript.Proofs.Scan.Completeness

/-!
# How far a step looks

Which rule a step of the scan puts in, if any, is settled by the text up to a character that no identifier and no spelling
has, and by whether the place is code. So the scan of a text that ends in such a character, with nothing open, is the
beginning of the scan of every text that goes on from there.
-/

namespace HangulScript

open Text

namespace Keywords

variable {table : List Rule} {regions : OpenRegions} {text : List Char} {m : Char} {before : Option Char}

theorem notMem_spelling (hplain : ∀ rule ∈ table, rule.Plain) (hmark : marksRegion m = true) :
    ∀ rule ∈ table, m ∉ rule.spelling := fun rule hrule hmem => by
  have := (hplain rule hrule).1 m hmem
  rw [hmark] at this
  cases this

/-- Where the text goes on with the character `m` the same rule is put in, or none in either. -/
theorem step_append_stop (hplain : ∀ rule ∈ table, rule.Plain) (hname : isNameChar m = false)
    (hspelling : ∀ rule ∈ table, m ∉ rule.spelling) :
    (∃ rule : Rule, step table regions ⟨before, text⟩ = (⟨[], rule.spelling, rule.replacement⟩, regions) ∧
      ∀ regions' before' more, regions'.innermost.holdsCode = regions.innermost.holdsCode →
        before'.any isNameChar = before.any isNameChar →
        step table regions' ⟨before', text ++ m :: more⟩ = (⟨[], rule.spelling, rule.replacement⟩, regions')) ∨
    step table regions ⟨before, text⟩ = step [] regions ⟨before, text⟩ ∧
      ∀ regions' before' more, regions'.innermost.holdsCode = regions.innermost.holdsCode →
        before'.any isNameChar = before.any isNameChar →
        step table regions' ⟨before', text ++ m :: more⟩ = step [] regions' ⟨before', text ++ m :: more⟩ := by
  have hmatch : ∀ before' more, before'.any isNameChar = before.any isNameChar →
      Rule.firstMatch? table ⟨before', text ++ m :: more⟩ = Rule.firstMatch? table ⟨before, text⟩ := fun _ _ hfree =>
    Rule.firstMatch?_append_stop hname hspelling hfree
  have htries : ∀ {regions : OpenRegions} {place rule}, Rule.firstMatch? table place = some rule →
      regions.innermost.holdsCode = true → TriesRules regions place := fun hrule hcode =>
    triesRules_of_applies (hplain _ (Rule.mem_of_firstMatch? hrule)) hcode (Rule.applies_of_firstMatch? hrule)
  rcases step_cases table regions ⟨before, text⟩ with ⟨rule, ⟨hcode, -⟩, hrule, hstep⟩ | ⟨hnone, hstep⟩
  · refine Or.inl ⟨rule, hstep, fun regions' before' more hsame hfree => ?_⟩
    have hrule' := (hmatch before' more hfree).trans hrule
    exact step_of_firstMatch (htries hrule' (hsame.trans hcode)) hrule'
  · refine Or.inr ⟨hstep, fun regions' before' more hsame hfree => step_eq_nil fun ⟨hcode, _⟩ => ?_⟩
    rw [hmatch before' more hfree]
    refine Option.eq_none_iff_forall_not_mem.2 fun rule hrule => ?_
    rw [hnone (htries hrule (hsame.symm.trans hcode))] at hrule
    cases hrule

theorem keywordPass_seesFree (table : List Rule) : (keywordPass table).SeesFree := by
  intro regions before before' rest hfree
  have hmatch : Rule.firstMatch? table ⟨before, rest⟩ = Rule.firstMatch? table ⟨before', rest⟩ := by
    simp only [Rule.firstMatch?, Rule.applies_before hfree]
  have hcode : codeStep table regions ⟨before, rest⟩ = codeStep table regions ⟨before', rest⟩ := by
    simp only [codeStep, hmatch]
  simp only [keywordPass_step, step, holeStep, hcode]

/-! ## Texts that go on -/

theorem after_of_takesNext (h : takesNext m = true) : regions.after m = regions := by
  simp only [takesNext, List.contains_eq_mem, List.mem_cons, List.not_mem_nil, or_false, decide_eq_true_eq] at h
  unfold OpenRegions.after OpenRegions.opening
  split <;> rcases h with rfl | rfl | rfl | rfl <;> rfl

theorem pairing?_bottom (hslash : m ≠ '/') (more : List Char) :
    OpenRegions.bottom.pairing? m more = none := by
  cases more with
  | nil => rfl
  | cons d more =>
      change OpenRegions.bottom.afterPair? m d = none
      rw [afterPair?_of_holdsCode rfl, if_neg fun h => hslash h.1, if_neg fun h => hslash h.1]

/-- Before its last character the scan of a text that leaves nothing open makes the step that it makes where the text
goes on. -/
theorem step_append_edge (hplain : ∀ rule ∈ table, rule.Plain) (hname : isNameChar m = false)
    (hspelling : ∀ rule ∈ table, m ∉ rule.spelling) (hslash : m ≠ '/') {out : List Char}
    (h : (keywordPass table).Leads regions ⟨before, text ++ [m]⟩ out .bottom) (more : List Char) :
    step table regions ⟨before, text ++ m :: more⟩ = step table regions ⟨before, text ++ [m]⟩ := by
  have hcases := @step_append_stop table regions text m before hplain hname hspelling
  rcases hcases with ⟨rule, -, hmore⟩ | ⟨-, hmore⟩
  · rw [hmore regions before more rfl rfl, hmore regions before [] rfl rfl]
  · have hend := hmore regions before [] rfl rfl
    rw [hmore regions before more rfl rfl, hend]
    cases text with
    | cons c text =>
        rw [List.cons_append, List.cons_append, step_nil_cons, step_nil_cons]
        cases text <;> rfl
    | nil =>
        rw [List.nil_append] at h hend ⊢
        have hpair : regions.pairing? m more = none := by
          cases htakes : takesNext m with
          | false => exact OpenRegions.pairing?_of_not_takesNext more htakes
          | true =>
              -- alone it changes no regions, so none are open before it
              have halone : step table regions ⟨before, [m]⟩ = (.copy [m], regions) := by
                rw [hend, step_nil_cons, after_of_takesNext htakes]
                rfl
              obtain ⟨-, hfinal⟩ := h.unique (.of_copy [m] halone (List.cons_ne_nil _ _) (.done rfl))
              rw [← hfinal, pairing?_bottom hslash]
        rw [List.nil_append, step_nil_cons, step_nil_cons, hpair]
        rfl

end Keywords

end HangulScript
