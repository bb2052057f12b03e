import HangulScript.Proofs.Conversion.Regions
import HangulScript.Proofs.Methods.Locality
import HangulScript.Proofs.Scan.Locality

/-!
# Texts that are put together

A text that leaves nothing open and ends outside of identifiers, blanks and spellings is converted as if nothing came after
it, and what comes after it as if it stood alone.
-/

namespace HangulScript

open Text

variable {p s : List Char}

/-- Nothing that begins before the end of the text goes on after it. -/
def Seam (text : List Char) : Prop :=
  ∀ m ∈ text.getLast?, isNameChar m = false ∧ m ∉ [' ', '.', '/']

theorem notMem_spelling_of_seam {m : Char} (hname : isNameChar m = false) (hm : m ∉ [' ', '.', '/']) :
    ∀ rule ∈ keywordTable, m ∉ rule.spelling := by
  intro rule hrule hmem
  rcases Rule.keywordTable_spelling rule hrule m hmem with ⟨hfirst, hlast⟩ | rfl | rfl
  · rw [Rule.isNameChar_of_syllable hfirst hlast] at hname
    cases hname
  · exact hm (by decide)
  · exact hm (by decide)

theorem seam_keyed (hp : Seam p) : Seam (keyed p) := by
  cases hlast : p.getLast? with
  | none =>
      obtain rfl : p = [] := List.getLast?_eq_none_iff.1 hlast
      obtain ⟨hkeyed, -⟩ := ((keywordPass keywordTable).leads_run []).unique (.done rfl)
      intro m hm
      rw [keyed, hkeyed] at hm
      cases hm
  | some m =>
      obtain ⟨hname, hm⟩ := hp m hlast
      have hkeyed : (keyed p).getLast? = some m := by
        refine ((keywordPass keywordTable).leads_run p).getLast?_eq (fun regions place hrest hread => ?_) hlast
        rw [Keywords.keywordPass_step] at hread ⊢
        rcases Keywords.step_cases keywordTable regions place with ⟨rule, -, hrule, hstep⟩ | ⟨-, hstep⟩
        · rw [hstep] at hread
          have hspelling := notMem_spelling_of_seam hname hm rule (Rule.mem_of_firstMatch? hrule)
          exact absurd (List.mem_of_getLast? (by simpa [Edit.consumed] using hread)) hspelling
        · obtain ⟨piece, -, hpiece⟩ := Keywords.step_nil_copies regions hrest
          rw [hstep, hpiece] at hread ⊢
          simpa using hread
      intro d hd
      rw [hkeyed] at hd
      obtain rfl := Option.some.inj hd
      exact ⟨hname, hm⟩

theorem keyed_append (hp : Seam p) (hbottom : ((keywordPass keywordTable).run p).final = .bottom) :
    keyed (p ++ s) = keyed p ++ keyed s := by
  have hleads := (keywordPass keywordTable).leads_run p
  rw [hbottom] at hleads
  refine (((keywordPass keywordTable).leads_run (p ++ s)).unique
    (hleads.append_start (Keywords.keywordPass_seesFree keywordTable) (fun m hm => ?_)
      ((keywordPass keywordTable).leads_run s))).1
  obtain ⟨hname, hmem⟩ := hp m hm
  refine ⟨hname, fun regions before text out h more => ?_⟩
  exact Keywords.step_append_edge Rule.keywordTable_plain hname (notMem_spelling_of_seam hname hmem)
    (fun hslash => hmem (by simp [hslash])) h more

theorem bareMethods_append (hp : Seam p) (hbraces : (methodPass.run p).final.braces = [])
    (hclass : (methodPass.run p).final.classAhead = false) : bareMethods (p ++ s) = bareMethods p ++ bareMethods s := by
  have halike : Methods.Alike methodPass.start (methodPass.run p).final := by
    refine ⟨?_, fun hne => absurd rfl hne⟩
    simp only [Methods.State.frames, hbraces, hclass]
    rfl
  obtain ⟨final, hs⟩ := Methods.Alike.leads (methodPass.leads_run s) halike
  refine ((methodPass.leads_run (p ++ s)).unique
    ((methodPass.leads_run p).append_start Methods.methodPass_seesFree (fun m hm => ?_) hs)).1
  obtain ⟨hname, hmem⟩ := hp m hm
  exact ⟨hname, fun state before text _ _ more =>
    Methods.step_append_edge hname (fun hspace => hmem (by simp [hspace])) state before text more⟩

/-- Two texts, the first of which leaves nothing open and ends outside of what goes on after it, are converted apart. -/
theorem conversion_append {trace : Trace OpenRegions} (hbraces : (p ++ s).count '{' < Region.maxHoleDepth)
    (htrace : traceKeywords keywordTable p = .ok trace) (hbottom : trace.final = .bottom)
    (hp : Seam p) :
    ∃ x y, replaceKeywords p = .ok x ∧ replaceKeywords s = .ok y ∧ replaceKeywords (p ++ s) = .ok (x ++ y) ∧
      ((methodPass.run x).final.braces = [] → (methodPass.run x).final.classAhead = false →
        ∃ a b, toTypeScript p = .ok a ∧ toTypeScript s = .ok b ∧ toTypeScript (p ++ s) = .ok (a ++ b)) := by
  obtain ⟨rfl, -⟩ := traceKeywords_eq_ok_iff.1 htrace
  have hkeyed : keyed (p ++ s) = keyed p ++ keyed s := keyed_append hp hbottom
  have hcount := hbraces
  rw [List.count_append] at hcount
  have hbracesP : p.count '{' < Region.maxHoleDepth := by omega
  have hbracesS : s.count '{' < Region.maxHoleDepth := by omega
  refine ⟨_, _, replaceKeywords_ok hbracesP, replaceKeywords_ok hbracesS, ?_, fun hopen hclass => ?_⟩
  · rw [replaceKeywords_ok hbraces, hkeyed]
  · refine ⟨_, _, toTypeScript_ok hbracesP, toTypeScript_ok hbracesS, ?_⟩
    rw [toTypeScript_ok hbraces, hkeyed, bareMethods_append (seam_keyed hp) hopen hclass]

/-- A class, a template with a hole and a comment, up to a semicolon. -/
def closedText : List Char :=
  "클래스 가 \x7b 함수 나() \x7b\x7d \x7d `$\x7b참\x7d` /* 함수 */;".toList

theorem conversion_append_of_class :
    ∃ x y a b, replaceKeywords closedText = .ok x ∧ replaceKeywords "함수 다()".toList = .ok y ∧
      replaceKeywords (closedText ++ "함수 다()".toList) = .ok (x ++ y) ∧ toTypeScript closedText = .ok a ∧
      toTypeScript "함수 다()".toList = .ok b ∧ toTypeScript (closedText ++ "함수 다()".toList) = .ok (a ++ b) := by
  have hbraces : closedText.count '{' < Region.maxHoleDepth := by decide
  have htrace := Keywords.traceKeywords_ok keywordTable hbraces
  have hbottom : ((keywordPass keywordTable).run closedText).final = .bottom := by
    rw [Pass.run_eq_runWithin]
    decide +kernel
  have hseam : Seam closedText := by
    intro m hm
    obtain rfl : ';' = m := Option.some.inj hm
    decide +kernel
  have hmethods : (methodPass.run (keyed closedText)).final.braces = [] ∧
      (methodPass.run (keyed closedText)).final.classAhead = false := by
    rw [keyed, Pass.run_eq_runWithin, Pass.run_eq_runWithin]
    decide +kernel
  obtain ⟨x, y, hx, hy, hxy, hclosed⟩ := conversion_append (s := "함수 다()".toList) (by decide) htrace hbottom hseam
  obtain rfl : keyed closedText = x := Except.ok.inj ((replaceKeywords_ok hbraces).symm.trans hx)
  obtain ⟨a, b, ha, hb, hab⟩ := hclosed hmethods.1 hmethods.2
  exact ⟨_, y, a, b, hx, hy, hxy, ha, hb, hab⟩

end HangulScript
