import HangulScript.Proofs.Methods.Normal
import HangulScript.Proofs.Scan.Normal

/-!
# Converting what was converted

The method pass drops nothing inside of a spelling, so what it leaves has no keyword that its text did not have. Neither
pass has anything left to do on what was converted.
-/

namespace HangulScript

open Text

variable {table : List Rule} {text : List Char}

/-! ## Keywords in what is left -/

namespace Methods

variable {lead rest : List Char} {rule : Rule}

theorem keywordTable_sealed : ∀ rule ∈ keywordTable, Sealed rule.spelling := by
  decide +kernel

theorem edit_syllable {state : State} {place : Cursor} {c : Char} (hrest : place.rest ≠ []) (hsyllable : 0xAC00 ≤ c.toNat)
    (hmem : c ∈ (edit state place).consumed) : edit state place = .copy [c] := by
  have hwords : (classWord ++ (asyncLead ++ (functionWord ++ [' ']))).all (fun d => d.toNat < 0xAC00) = true := by decide
  have hforeign : c ∉ classWord ++ (asyncLead ++ (functionWord ++ [' '])) := fun hc => by
    have := of_decide_eq_true (List.all_eq_true.1 hwords c hc)
    omega
  simp only [List.mem_append, not_or] at hforeign
  obtain ⟨hclass, hasync, hbare, hspace⟩ := hforeign
  rcases edit_forms state hrest with ⟨-, hedit⟩ | hdrops | ⟨d, _, -, hedit, -⟩
  · rw [hedit, Edit.consumed_copy] at hmem
    exact absurd hmem hclass
  · obtain ⟨hkept, hremoved⟩ := hdrops.consumed_cases
    rw [Edit.consumed] at hmem
    rcases hkept with hkept | hkept <;> rcases hremoved with hremoved | hremoved <;>
      simp [hkept, hremoved, hasync, hbare] at hmem hspace <;> exact absurd hmem hspace
  · rw [hedit, Edit.consumed_copy] at hmem
    rw [hedit, List.mem_singleton.1 hmem]

/-- The pass comes to every syllable, and copies it. -/
theorem reaches_syllable {c : Char} (hsyllable : 0xAC00 ≤ c.toNat) (lead rest : List Char) :
    ∃ earlier state, methodPass.Reaches (lead ++ c :: rest) earlier state ⟨lead.getLast?, c :: rest⟩ ∧
      readBy earlier = lead ∧ edit state ⟨lead.getLast?, c :: rest⟩ = .copy [c] := by
  obtain ⟨earlier, v, a, b, -, hreach, -, hedit, hlead, hconsumed, hplace⟩ :=
    methodPass.exists_visit_reading (rfl : lead ++ c :: rest = _)
  have hedit : v.edit = edit v.state v.place := hedit
  have hrest : v.place.rest ≠ [] := by simp [hplace]
  have hread : c ∈ (edit v.state v.place).consumed := by simp [← hedit, hconsumed]
  have hcopy := edit_syllable hrest hsyllable hread
  -- it is the only character that the visit reads
  obtain rfl : a = [] := by
    rw [hedit, hcopy, Edit.consumed_copy] at hconsumed
    rcases List.append_eq_singleton_iff.1 hconsumed.symm with ⟨ha, -⟩ | ⟨-, hnil⟩
    · exact ha
    · exact absurd hnil (List.cons_ne_nil c b)
  rw [List.append_nil] at hlead
  have hat : v.place = ⟨lead.getLast?, c :: rest⟩ := by
    rw [hlead, ← hreach.before_eq, ← List.nil_append (c :: rest), ← hplace]
  exact ⟨earlier, v.state, hat ▸ hreach, hlead.symm, hat ▸ hcopy⟩

theorem applies_of_survivors (hpoints : Unpointed text) (htext : text = lead ++ rest) (hmem : rule ∈ keywordTable)
    (hkept : droppedBy (methodPass.run text).visits (byteLength lead) = false)
    (happlies : rule.applies ⟨(survivors (droppedBy (methodPass.run text).visits) 0 lead).getLast?,
      survivors (droppedBy (methodPass.run text).visits) (byteLength lead) rest⟩ = true) :
    rule.applies ⟨lead.getLast?, rest⟩ = true := by
  subst htext
  obtain ⟨hbegins, halone⟩ := Rule.applies_iff.1 happlies
  obtain ⟨⟨c, hc, hfirst, hlast⟩, -⟩ := Rule.keywordTable_ends rule hmem
  obtain ⟨spelling, hspelling⟩ := List.head?_eq_some_iff.1 hc
  -- the first character of the spelling is there in the text
  obtain ⟨rest, rfl⟩ : ∃ rest', rest = c :: rest' := by
    cases rest with
    | nil =>
        rw [hspelling, survivors] at hbegins
        cases List.prefix_nil.1 hbegins
    | cons d rest =>
        rw [survivors, hkept, hspelling] at hbegins
        exact ⟨rest, by rw [(List.cons_prefix_cons.1 hbegins).1]⟩
  obtain ⟨earlier, state, hreach, hread, hcopy⟩ := reaches_syllable hfirst lead rest
  have hname : rule.spelling.head?.any isNameChar = true := by
    rw [hc, Option.any_some, Rule.isNameChar_of_syllable hfirst hlast]
  have hwritten := survivors_run edit_inserted hreach
  have hleads := leads_survivors edit_inserted hreach
  rw [hread] at hwritten hleads
  obtain ⟨hplace, hbefore, hafter⟩ :=
    (keywordTable_sealed rule hmem).leads hname (fun _ => hpoints) hreach hcopy hleads hbegins
  rw [← hwritten] at hbefore hafter
  refine Rule.applies_iff.2 ⟨hplace, fun hstands => ?_⟩
  rw [hbefore, hafter]
  exact halone hstands

end Methods

/-! ## The keyword pass over what is left -/

namespace Keywords

variable {gone : Nat → Bool} {lead : List Char} {regions : OpenRegions} {place : Cursor}

theorem step_eq_nil_of_copy {piece : List Char} (hcopy : (step table regions place).1 = .copy piece) :
    (TriesRules regions place → Rule.firstMatch? table place = none) ∧
      step table regions place = step [] regions place := by
  rcases step_cases table regions place with ⟨rule, -, -, hstep⟩ | hstep
  · rw [hstep] at hcopy
    exact absurd (congrArg Edit.removed hcopy) rule.spelling_ne_nil
  · exact hstep

/-- Where a text loses characters loosely and no rule comes to match, the pass still copies what is left. -/
theorem idle_survivors (hplain : ∀ rule ∈ table, rule.Plain) (hloose : Loose gone text)
    (hrules : ∀ lead rest, text = lead ++ rest → gone (byteLength lead) = false → ∀ rule ∈ table,
      rule.applies ⟨(survivors gone 0 lead).getLast?, survivors gone (byteLength lead) rest⟩ = true →
        rule.applies ⟨lead.getLast?, rest⟩ = true)
    (htext : text = lead ++ place.rest) (hbefore : place.before = lead.getLast?)
    (h : (keywordPass table).Idle regions place) :
    (keywordPass table).Idle regions
      ⟨(survivors gone 0 lead).getLast?, survivors gone (byteLength lead) place.rest⟩ := by
  induction h generalizing lead with
  | done hrest =>
      rw [hrest]
      exact .done rfl
  | @step regions place piece hrest hcopy h ih =>
      obtain ⟨hnone, hstep⟩ := step_eq_nil_of_copy hcopy
      obtain ⟨piece', hne, hpiece, hsurvive⟩ :=
        step_survivors hloose htext hrest regions (survivors gone 0 lead).getLast?
      obtain ⟨rest, hplace⟩ := Pass.consumed_prefix (keywordPass []) regions place
      simp only [keywordPass_step, hpiece, Edit.consumed_copy] at hplace
      obtain rfl : piece = piece' := by
        rw [keywordPass_step, hstep, hpiece] at hcopy
        exact (congrArg Edit.kept hcopy).symm
      rw [Cursor.advance_append hplace.symm] at ih
      have htext' : text = (lead ++ piece) ++ rest := by rw [htext, ← hplace, List.append_assoc]
      have hnext := ih htext' (by rw [List.getLast?_append, hbefore])
      simp only [keywordPass_step, hstep, survivors_append, Nat.zero_add, byteLength_append] at hnext
      rcases hsurvive with ⟨hgone, hstay⟩ | ⟨hkept, hsame⟩
      · rw [hgone, List.append_nil, hstay] at hnext
        rw [← hplace, survivors_append, hgone, List.nil_append]
        exact hnext
      · have hfirst : gone (byteLength lead) = false := by
          obtain ⟨c, piece, rfl⟩ := List.exists_cons_of_ne_nil hne
          exact kept_of_survivors_eq hkept
        have hsame' : step table regions
            ⟨(survivors gone 0 lead).getLast?, survivors gone (byteLength lead) place.rest⟩ = step [] regions place := by
          rw [step_eq_nil (firstMatch?_eq_none_of_applies hplain hnone fun rule hmem happlies => ?_), hsame]
          have hat := hrules lead place.rest htext hfirst rule hmem happlies
          rwa [← hbefore] at hat
        rw [← hplace, survivors_append, hkept] at hsame' ⊢
        rw [hkept, List.getLast?_append] at hnext
        refine .of_copy piece ?_ hne hnext
        rw [keywordPass_step, hsame', ← hpiece]

end Keywords

/-! ## Both passes -/

/-- What the method pass leaves of a text without keywords has none. -/
theorem keyed_bareMethods {source : List Char} (hpoints : Methods.Unpointed (keyed source)) :
    keyed (bareMethods (keyed source)) = bareMethods (keyed source) := by
  have htext : keyed source = [] ++ (Cursor.start (keyed source)).rest := rfl
  have hidle := Keywords.idle_survivors Rule.keywordTable_plain (Methods.loose_droppedBy (keyed source))
    (fun lead rest htext hkept rule hmem => Methods.applies_of_survivors hpoints htext hmem hkept) htext rfl
    (idle_keyed source)
  rw [Methods.bareMethods_eq_survivors]
  exact hidle.run.1

/-- Where no `function` comes after a point and none comes twice after an `async`, what was converted converts to
itself. -/
theorem conversion_idempotent {source text : List Char} (hbraces : source.count '{' < Region.maxHoleDepth)
    (hkeyed : replaceKeywords source = .ok text) (hasync : ¬ "async function function".toList <:+: text)
    (hpoints : Methods.Unpointed text) : ∃ out, toTypeScript source = .ok out ∧ toTypeScript out = .ok out := by
  obtain rfl : keyed source = text := Except.ok.inj ((replaceKeywords_ok hbraces).symm.trans hkeyed)
  have hcount : (keyed source).count '{' < Region.maxHoleDepth := by rwa [count_keyed]
  have hout := Nat.lt_of_le_of_lt (count_bareMethods_le (keyed source)) hcount
  refine ⟨_, toTypeScript_ok hbraces, ?_⟩
  rw [toTypeScript_ok hout, keyed_bareMethods hpoints, bareMethods_bareMethods hasync]

/-- A class with an asynchronous method, a word before a method and the console idiom next to a word. -/
def methodsWithCalls : List Char :=
  "클래스 가 \x7b 비동기함수 나() \x7b 콘솔.출력함수() \x7d 함수 다 \x7d".toList

theorem conversion_idempotent_of_class :
    methodsWithCalls.count '{' < Region.maxHoleDepth ∧
      ∃ text, replaceKeywords methodsWithCalls = .ok text ∧ ¬ "async function function".toList <:+: text ∧
        Methods.Unpointed text ∧ ∃ out, toTypeScript methodsWithCalls = .ok out ∧ toTypeScript out = .ok out := by
  have hbraces : methodsWithCalls.count '{' < Region.maxHoleDepth := by decide
  have hkeyed := replaceKeywords_ok hbraces
  have htext : keyed methodsWithCalls =
      "class 가 \x7b async function 나() \x7b console.log함수() \x7d function 다 \x7d".toList := by
    rw [keyed, Pass.run_eq_runWithin]
    decide +kernel
  have hasync : ¬ "async function function".toList <:+: keyed methodsWithCalls := by
    rw [htext]
    decide +kernel
  have hpoints : Methods.Unpointed (keyed methodsWithCalls) := by
    rw [htext]
    decide +kernel
  exact ⟨hbraces, _, hkeyed, hasync, hpoints, conversion_idempotent hbraces hkeyed hasync hpoints⟩

end HangulScript
