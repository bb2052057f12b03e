import HangulScript.Proofs.Keyword.Locality
import HangulScript.Proofs.Methods.Braces

/-!
# How far the method pass looks

A step of the method pass looks no further than the next character that is neither a blank nor in an identifier, and of
what comes before the place it knows the open braces and, inside them, the last solid character.
-/

namespace HangulScript

open Text

namespace Methods

variable {state other : State} {before before' : Option Char} {place : Cursor} {text rest word : List Char} {m : Char}

theorem notMem_words (hname : isNameChar m = false) (hspace : m ≠ ' ') :
    m ∉ classWord ∧ m ∉ asyncLead ++ functionWord ∧ m ∉ functionWord := by
  have hwords : (classWord ++ (asyncLead ++ functionWord)).all (fun c => c == ' ' || isNameChar c) = true := by
    decide +kernel
  have hm : m ∉ classWord ++ (asyncLead ++ functionWord) := fun hmem => by
    rcases Bool.or_eq_true_iff.1 (List.all_eq_true.1 hwords m hmem) with hblank | hsolid
    · exact hspace (eq_of_beq hblank)
    · rw [hname] at hsolid
      cases hsolid
  simp only [List.mem_append, not_or] at hm ⊢
  exact ⟨hm.1, hm.2, hm.2.2⟩

theorem holdsWord_stop (hm : m ∉ word) (hne : word ≠ []) :
    (Cursor.mk before (m :: rest)).holdsWord word = false := by
  refine Bool.eq_false_iff.2 fun h => ?_
  obtain ⟨c, word, rfl⟩ := List.exists_cons_of_ne_nil hne
  obtain rfl := (List.cons_prefix_cons.1 (Cursor.holdsWord_iff.1 h).1).1
  exact hm List.mem_cons_self

theorem edit_stop (state : State) (before : Option Char) (rest : List Char) (hname : isNameChar m = false)
    (hspace : m ≠ ' ') : edit state ⟨before, m :: rest⟩ = .copy [m] := by
  obtain ⟨hclass, hasync, hbare⟩ := notMem_words hname hspace
  simp [edit, holdsWord_stop hclass (by decide), holdsWord_stop hasync (by decide), holdsWord_stop hbare (by decide)]

theorem elision_append_stop (hspace : m ≠ ' ') (hword : functionWord <+: text) :
    elision (text ++ m :: rest) = elision text := by
  obtain ⟨after, rfl⟩ := hword
  unfold elision
  rw [List.append_assoc, List.drop_left, List.drop_left]
  cases after with
  | nil => simp [hspace]
  | cons c after =>
      by_cases hblank : c = ' '
      · subst hblank
        rfl
      · simp [hblank]

theorem edit_append_stop (hname : isNameChar m = false) (hspace : m ≠ ' ') (htext : text ≠ []) :
    edit state ⟨before, text ++ m :: rest⟩ = edit state ⟨before, text⟩ := by
  obtain ⟨hclassStop, hasyncStop, hbareStop⟩ := notMem_words hname hspace
  have hlength : ∀ {word}, (Cursor.mk before text).holdsWord word = true → word.length ≤ text.length :=
    fun h => (Cursor.holdsWord_iff.1 h).1.length_le
  unfold edit
  rw [Cursor.holdsWord_append_stop hname hclassStop, Cursor.holdsWord_append_stop hname hasyncStop,
    Cursor.holdsWord_append_stop hname hbareStop]
  split_ifs with hclass hasync hbare
  · rw [List.take_append_of_le_length (hlength hclass)]
  · obtain ⟨-, hword⟩ := Bool.and_eq_true_iff.1 hasync
    obtain ⟨after, rfl⟩ : asyncLead ++ functionWord <+: text := (Cursor.holdsWord_iff.1 hword).1
    have hle : asyncLead.length ≤ (asyncLead ++ functionWord ++ after).length := by simp
    have hbegins : functionWord <+: (asyncLead ++ functionWord ++ after).drop asyncLead.length := by simp
    rw [List.take_append_of_le_length hle, List.drop_append_of_le_length hle, elision_append_stop hspace hbegins]
  · obtain ⟨-, hword⟩ := Bool.and_eq_true_iff.1 hbare
    rw [elision_append_stop hspace (Cursor.holdsWord_iff.1 hword).1]
  · rw [List.take_append_of_le_length (List.length_pos_iff.2 htext)]

theorem step_append_stop (hname : isNameChar m = false) (hspace : m ≠ ' ') (htext : text ≠ []) :
    step state ⟨before, text ++ m :: rest⟩ = step state ⟨before, text⟩ := by
  have hclass : (Cursor.mk before (text ++ m :: rest)).holdsWord classWord =
      (Cursor.mk before text).holdsWord classWord :=
    Cursor.holdsWord_append_stop hname (notMem_words hname hspace).1
  have henter : state.enter ⟨before, text ++ m :: rest⟩ = state.enter ⟨before, text⟩ := by
    obtain ⟨c, text, rfl⟩ := List.exists_cons_of_ne_nil htext
    unfold State.enter
    rw [hclass]
    rfl
  rw [step, step, edit_append_stop hname hspace htext, henter]

/-! ## Texts that go on -/

theorem step_append_edge (hname : isNameChar m = false) (hspace : m ≠ ' ') (state : State) (before : Option Char)
    (text rest : List Char) : step state ⟨before, text ++ m :: rest⟩ = step state ⟨before, text ++ [m]⟩ := by
  by_cases htext : text = []
  · have hclass : ∀ rest, (Cursor.mk before (m :: rest)).holdsWord classWord = false := fun rest =>
      holdsWord_stop (notMem_words hname hspace).1 (by decide)
    have henter : state.enter ⟨before, m :: rest⟩ = state.enter ⟨before, [m]⟩ := by
      rw [State.enter, State.enter, hclass, hclass]
      rfl
    rw [htext, List.nil_append, List.nil_append, step, step, edit_stop state before rest hname hspace,
      edit_stop state before [] hname hspace, henter]
  · rw [step_append_stop hname hspace htext, step_append_stop hname hspace htext]

theorem methodPass_seesFree : methodPass.SeesFree := by
  intro state before before' rest hfree
  have hholds : ∀ word, (Cursor.mk before rest).holdsWord word = (Cursor.mk before' rest).holdsWord word := fun _ =>
    Cursor.holdsWord_before hfree
  simp only [methodPass_step, step, edit, State.enter, hholds]

/-! ## Outside of braces -/

/-- Two states with the same open braces, and inside of them the same last solid character. -/
def Alike (state other : State) : Prop :=
  state.frames = other.frames ∧ (state.braces ≠ [] → state.lastSolid = other.lastSolid)

theorem Alike.edit_eq (h : Alike state other) (place : Cursor) : edit state place = edit other place := by
  have hmember : state.atMember = other.atMember := by
    obtain ⟨hframes, hsolid⟩ := h
    have hbraces : state.braces = other.braces := congrArg Frames.braces hframes
    rw [State.atMember, State.atMember, ← hbraces]
    cases hopen : state.braces with
    | nil => rfl
    | cons brace braces => rw [hsolid (by simp [hopen])]
  unfold edit
  rw [hmember]

theorem Alike.step (h : Alike state other) (hrest : place.rest ≠ []) :
    Alike (step state place).2 (step other place).2 := by
  have hedit := h.edit_eq place
  obtain ⟨hframes, hsolid⟩ := h
  have hnext : (state.enter place).frames = (other.enter place).frames := by
    rw [frames_enter, frames_enter, hframes]
  refine ⟨hnext, fun hbraces => ?_⟩
  change lastSolidAfter state.lastSolid (edit state place).written =
    lastSolidAfter other.lastSolid (edit other place).written
  rw [← hedit]
  by_cases hnone : state.braces = []
  · -- the first brace is itself the last solid character
    rw [written_of_opens hrest hnone hbraces]
    rfl
  · rw [hsolid hnone]

/-- From alike states the pass writes the same. -/
theorem Alike.leads {out : List Char} {final : State} (h : methodPass.Leads state place out final)
    (halike : Alike state other) : ∃ final', methodPass.Leads other place out final' := by
  induction h generalizing other with
  | done hrest => exact ⟨other, .done hrest⟩
  | @step state final place out hrest h ih =>
      have hedit : (methodPass.step state place).1 = (methodPass.step other place).1 := halike.edit_eq place
      obtain ⟨final', hnext⟩ := ih (halike.step hrest)
      rw [hedit] at hnext ⊢
      exact ⟨final', .step hrest hnext⟩

end Methods

end HangulScript
