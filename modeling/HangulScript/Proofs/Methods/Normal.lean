import HangulScript.Proofs.Methods.Words

/-!
# What is written has no members to drop

Over what it wrote the method pass comes to the same places in the same states, only that it copies an `async` letter by
letter where it dropped the word after it. It drops nothing, unless the word stood there twice.
-/

namespace HangulScript

open Text

namespace Methods

variable {text out piece rest : List Char} {done : List (Visit State)} {state final : State} {place : Cursor}
  {before : Option Char} {c : Char}

/-! ## Copies -/

/-- Where the pass copies, it makes the same step over what it writes. -/
theorem step_written (hreach : methodPass.Reaches text done state place) (hrest : place.rest ≠ [])
    (hcopy : edit state place = .copy piece) (h : methodPass.Leads state place (piece ++ out) final) :
    step state ⟨(writtenBy done).getLast?, piece ++ out⟩ = step state place := by
  have hwords : classWord ∈ passWords ∧ asyncLead ++ functionWord ∈ passWords ∧ functionWord ∈ passWords := by
    simp [passWords]
  obtain ⟨hclassMem, hasyncMem, hbareMem⟩ := hwords
  have hne : piece ≠ [] := by simpa [hcopy] using edit_consumed_ne_nil state hrest
  have hhead : (piece ++ out).head? = place.rest.head? := by
    obtain ⟨rest, hplace⟩ := edit_consumed_prefix state place
    rw [← hplace, hcopy, Edit.consumed_copy, List.head?_append_of_ne_nil _ hne, List.head?_append_of_ne_nil _ hne]
  have henter : (Cursor.mk (writtenBy done).getLast? (piece ++ out)).holdsWord classWord =
      place.holdsWord classWord → state.enter ⟨(writtenBy done).getLast?, piece ++ out⟩ = state.enter place := by
    intro hclass
    simp only [State.enter, hclass, hhead]
  rcases edit_forms state hrest with ⟨hclass, hedit⟩ | hdrops | ⟨c, _, -, hedit, hclass, hnone⟩
  · obtain rfl : piece = classWord := congrArg Edit.kept (hcopy.symm.trans hedit)
    have hsame := holdsWord_written hclassMem hreach hcopy h (List.prefix_append _ _)
    have hagain : edit state ⟨(writtenBy done).getLast?, classWord ++ out⟩ = .copy classWord := by
      rw [edit, if_pos (hsame.trans hclass), List.take_left]
    rw [step, step, henter hsame, hcopy, hagain]
  · have hchanges := changes_of_drops hdrops
    rw [hcopy] at hchanges
    cases hchanges
  · obtain rfl : piece = [c] := congrArg Edit.kept (hcopy.symm.trans hedit)
    have hclass' := not_holdsWord_written hclassMem hreach hcopy h hclass
    have hagain : edit state ⟨(writtenBy done).getLast?, [c] ++ out⟩ = .copy [c] := by
      unfold edit
      rw [hclass']
      cases hmember : state.atMember with
      | false => rfl
      | true =>
          obtain ⟨hasync, hbare⟩ := hnone hmember
          rw [not_holdsWord_written hasyncMem hreach hcopy h hasync, not_holdsWord_written hbareMem hreach hcopy h hbare]
          rfl
    rw [step, step, henter (hclass'.trans hclass.symm), hcopy, hagain]

/-! ## A kept `async` -/

theorem idle_of_plain (hclass : ¬ classWord <+: c :: rest)
    (hmember : state.atMember = true → ¬ asyncLead ++ functionWord <+: c :: rest ∧ ¬ functionWord <+: c :: rest)
    (hbrace : c ≠ '{' ∧ c ≠ '}')
    (h : methodPass.Idle { state with lastSolid := lastSolidAfter state.lastSolid [c] } ⟨some c, rest⟩) :
    methodPass.Idle state ⟨before, c :: rest⟩ := by
  have hholds : ∀ {word}, ¬ word <+: c :: rest → (Cursor.mk before (c :: rest)).holdsWord word = false := fun hword =>
    Bool.eq_false_iff.2 fun h => hword (Cursor.holdsWord_iff.1 h).1
  have hedit : edit state ⟨before, c :: rest⟩ = .copy [c] := by
    unfold edit
    rw [hholds hclass]
    cases hat : state.atMember with
    | false => rfl
    | true =>
        rw [hholds (hmember hat).1, hholds (hmember hat).2]
        rfl
  have henter : state.enter ⟨before, c :: rest⟩ = state := by
    simp [State.enter, hholds hclass, hbrace.1, hbrace.2]
  refine .of_copy [c] ?_ (List.cons_ne_nil _ _) h
  simp [step, hedit, henter]

theorem idle_of_letter {d : Char} (hlast : state.lastSolid = some d) (hletter : canBeginMember (some d) = false)
    (hclass : ¬ classWord <+: c :: rest) (hbrace : c ≠ '{' ∧ c ≠ '}')
    (h : methodPass.Idle { state with lastSolid := lastSolidAfter (some d) [c] } ⟨some c, rest⟩) :
    methodPass.Idle state ⟨before, c :: rest⟩ := by
  refine idle_of_plain hclass (fun hmember => ?_) hbrace (by rwa [hlast])
  rw [State.atMember, hlast, hletter, Bool.and_false] at hmember
  cases hmember

theorem idle_of_async (hbare : ¬ functionWord <+: out)
    (h : methodPass.Idle { state with lastSolid := some 'c' } ⟨some ' ', out⟩) :
    methodPass.Idle state ⟨before, asyncLead ++ out⟩ := by
  have hclassWord : classWord = ['c', 'l', 'a', 's', 's'] := by decide
  have hasyncLead : asyncLead = ['a', 's', 'y', 'n', 'c', ' '] := by decide
  have hfunctionWord : functionWord = ['f', 'u', 'n', 'c', 't', 'i', 'o', 'n'] := by decide
  have hasync : ¬ asyncLead ++ functionWord <+: asyncLead ++ out := by
    rwa [List.prefix_append_right_inj]
  rw [hasyncLead] at hasync ⊢
  refine idle_of_plain (by simp [hclassWord]) (fun _ => ⟨hasync, by simp [hfunctionWord]⟩) (by decide) ?_
  refine idle_of_letter (d := 'a') rfl rfl (by simp [hclassWord]) (by decide) ?_
  refine idle_of_letter (d := 's') rfl rfl (by simp [hclassWord]) (by decide) ?_
  refine idle_of_letter (d := 'y') rfl rfl (by simp [hclassWord]) (by decide) ?_
  refine idle_of_letter (d := 'n') rfl rfl (by simp [hclassWord]) (by decide) ?_
  exact idle_of_letter (d := 'c') rfl rfl (by simp [hclassWord]) (by decide) h

/-! ## A second pass -/

/-- After an `async` whose word was dropped the word does not come again. -/
theorem not_begins_of_async (hasync : ¬ asyncLead ++ functionWord ++ [' '] ++ functionWord <:+: text)
    (hreach : methodPass.Reaches text done state place) (hrest : place.rest ≠ [])
    (hdrops : Drops state place (edit state place)) (hkept : (edit state place).kept = asyncLead)
    (h : methodPass.Leads (step state place).2 (place.advance (edit state place).consumed.length) out final) :
    ¬ functionWord <+: out := by
  intro hbegins
  obtain ⟨rest, hplace⟩ := edit_consumed_prefix state place
  have hnext := hreach.step hrest
  simp only [methodPass_step, step_fst, Cursor.advance_append hplace.symm] at hnext h
  have hrest' : rest ≠ [] := by
    rintro rfl
    obtain ⟨rfl, -⟩ := h.unique (.done rfl)
    cases List.prefix_nil.1 hbegins
  -- no member begins after an `async`, so the word is copied
  have hletter : (step state place).2.atMember = false := by
    have hlast : lastSolidAfter state.lastSolid asyncLead = some 'c' := rfl
    rw [step, hdrops.written, hkept, hlast, State.atMember]
    exact Bool.and_false _
  have hcopies : (Cursor.mk ((edit state place).consumed.getLast?.or place.before) rest).rest ≠ [] := hrest'
  rcases edit_cases (step state place).2 hcopies with ⟨piece, -, hcopy⟩ | hagain
  · have hmem : functionWord ∈ passWords := by simp [passWords]
    obtain ⟨more, rfl⟩ := begins_of_written hmem hnext hcopy h hbegins
    rcases hdrops.removed with hremoved | ⟨hremoved, -⟩
    · refine hasync ⟨readBy done, more, ?_⟩
      rw [hreach.text_eq, ← hplace, Edit.consumed, hkept, hremoved]
      simp
    · have hafter := (Cursor.holdsWord_iff.1 hdrops.word).2.2
      rw [Edit.consumed, hkept, hremoved] at hplace
      rw [hkept, Cursor.advance_append hplace.symm, Cursor.freeAfter, List.head?_append_of_ne_nil _ (by decide),
        (passWords_sealed functionWord hmem).2.1] at hafter
      cases hafter
  · rw [hagain.atMember] at hletter
    cases hletter

/-- Over what it wrote the pass copies everything. -/
theorem idle_written (hasync : ¬ asyncLead ++ functionWord ++ [' '] ++ functionWord <:+: text)
    (hreach : methodPass.Reaches text done state place) (h : methodPass.Leads state place out final) :
    methodPass.Idle state ⟨(writtenBy done).getLast?, out⟩ := by
  induction h generalizing done with
  | done => exact .done rfl
  | @step state final place out hrest h ih =>
      have hall := Pass.Leads.step hrest h
      have hidle := ih (hreach.step hrest)
      simp only [methodPass_step, step_fst] at h hall hidle ⊢
      rw [writtenBy_append, writtenBy_cons, writtenBy_nil, List.append_nil, List.getLast?_append] at hidle
      rcases edit_cases state hrest with ⟨piece, hne, hcopy⟩ | hdrops
      · simp only [hcopy, Edit.written_copy] at hall hidle ⊢
        refine .of_copy piece ?_ hne hidle
        rw [methodPass_step, step_written hreach hrest hcopy hall, step, hcopy]
      · have hstate : (step state place).2 =
            { state with lastSolid := lastSolidAfter state.lastSolid (edit state place).kept } := by
          rw [step, enter_of_drops hdrops, hdrops.written]
        rw [hdrops.written] at hidle ⊢
        rcases hdrops.kept with hkept | hkept
        · rw [hstate, hkept] at hidle
          rw [hkept]
          exact hidle
        · have hbare := not_begins_of_async hasync hreach hrest hdrops hkept h
          rw [hstate, hkept] at hidle
          rw [hkept]
          exact idle_of_async hbare hidle

end Methods

theorem bareMethods_bareMethods {text : List Char} (hasync : ¬ "async function function".toList <:+: text) :
    bareMethods (bareMethods text) = bareMethods text := by
  have hwords : Methods.asyncLead ++ Methods.functionWord ++ [' '] ++ Methods.functionWord =
      "async function function".toList := by decide
  rw [← hwords] at hasync
  exact (Methods.idle_written hasync .start (methodPass.leads_run text)).run.1

end HangulScript
