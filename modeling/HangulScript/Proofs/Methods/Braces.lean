import HangulScript.Proofs.Methods.Drops

/-!
# The braces around a place

Which braces are open at a place of a text is told by the text alone. The method pass, which jumps over words, knows them
wherever it comes.
-/

namespace HangulScript

open Text

namespace Methods

/-- The open braces at a place, the innermost first, and whether a `class` waits for the brace of its body. -/
structure Frames where
  braces : List Brace
  classAhead : Bool

/-- The braces after the next character. A brace after the word `class` opens a class body, any other one opens more of
what is around it. -/
def Frames.over (frames : Frames) (place : Cursor) : Frames :=
  if place.holdsWord classWord then ⟨frames.braces, true⟩
  else if place.rest.head? = some '{' then
    ⟨(if frames.classAhead then .classBody else frames.braces.headD .other) :: frames.braces, false⟩
  else if place.rest.head? = some '}' then ⟨frames.braces.tail, frames.classAhead⟩
  else frames

/-- The braces after a text that stands between a character and a rest. -/
def Frames.through : Frames → Option Char → List Char → List Char → Frames
  | frames, _, [], _ => frames
  | frames, before, c :: text, rest => (frames.over ⟨before, c :: (text ++ rest)⟩).through (some c) text rest

/-- The braces between the two parts of a text. -/
def framesAt (text rest : List Char) : Frames :=
  Frames.through ⟨[], false⟩ none text rest

def State.frames (state : State) : Frames :=
  ⟨state.braces, state.classAhead⟩

variable {text rest : List Char} {done : List (Visit State)} {state : State} {place : Cursor} {frames : Frames}
  {before : Option Char}

theorem Frames.through_append (frames : Frames) (before : Option Char) (a b rest : List Char) :
    frames.through before (a ++ b) rest =
      (frames.through before a (b ++ rest)).through (a.getLast?.or before) b rest := by
  induction a generalizing frames before with
  | nil => simp [through]
  | cons c a ih =>
      rw [List.cons_append, through, ih, through, List.append_assoc, getLast?_cons_or]

theorem frames_enter (state : State) (place : Cursor) : (state.enter place).frames = state.frames.over place := by
  by_cases hclass : place.holdsWord classWord = true
  · rw [State.enter, Frames.over, if_pos hclass, if_pos hclass]
    rfl
  by_cases hopening : place.rest.head? = some '{'
  · rw [State.enter, Frames.over, if_neg hclass, if_neg hclass, if_pos hopening, hopening]
    rfl
  by_cases hclosing : place.rest.head? = some '}'
  · rw [State.enter, Frames.over, if_neg hclass, if_neg hclass, if_neg hopening, if_pos hclosing, hclosing]
    rfl
  · rw [State.enter, Frames.over, if_neg hclass, if_neg hclass, if_neg hopening, if_neg hclosing]
    split
    · exact absurd ‹_› hopening
    · exact absurd ‹_› hclosing
    · rfl

theorem through_async : frames.through before asyncLead (functionWord ++ rest) = frames := rfl

/-! ## One step -/

theorem edit_of_class (hclass : place.holdsWord classWord = true) : edit state place = .copy classWord := by
  obtain ⟨after, hafter⟩ := (Cursor.holdsWord_iff.1 hclass).1
  rw [edit, if_pos hclass, ← hafter, List.take_left]

/-- The pass copies the word `class`, drops the word `function` or copies a character. -/
theorem edit_forms (state : State) (hrest : place.rest ≠ []) :
    (place.holdsWord classWord = true ∧ edit state place = .copy classWord) ∨ Drops state place (edit state place) ∨
      ∃ c rest, place.rest = c :: rest ∧ edit state place = .copy [c] ∧ place.holdsWord classWord = false ∧
        (state.atMember = true →
          place.holdsWord (asyncLead ++ functionWord) = false ∧ place.holdsWord functionWord = false) := by
  by_cases hclass : place.holdsWord classWord = true
  · exact Or.inl ⟨hclass, edit_of_class hclass⟩
  rcases edit_cases state hrest with ⟨piece, -, hcopy⟩ | hdrops
  · -- where a word is dropped, something is
    have hremoved : (edit state place).removed = [] := by rw [hcopy]; rfl
    unfold edit at hremoved ⊢
    rw [if_neg hclass] at hremoved ⊢
    split_ifs at hremoved ⊢ with hasync hbare
    · obtain ⟨after, hafter⟩ := (Cursor.holdsWord_iff.1 (Bool.and_eq_true_iff.1 hasync).2).1
      have hword : place.rest.drop asyncLead.length = functionWord ++ after := by
        rw [← hafter, List.append_assoc, List.drop_left]
      exact absurd hremoved (elision_ne_nil (hword ▸ List.cons_ne_nil _ _))
    · exact absurd hremoved (elision_ne_nil hrest)
    · obtain ⟨c, rest, hc⟩ := List.exists_cons_of_ne_nil hrest
      refine Or.inr (Or.inr ⟨c, rest, hc, by rw [hc]; rfl, Bool.eq_false_iff.2 hclass, fun hmember => ?_⟩)
      rw [hmember, Bool.true_and] at hasync hbare
      exact ⟨Bool.eq_false_iff.2 hasync, Bool.eq_false_iff.2 hbare⟩
  · exact Or.inr (Or.inl hdrops)

theorem Drops.consumed_cases {edit : Edit} (h : Drops state place edit) :
    (edit.kept = [] ∨ edit.kept = asyncLead) ∧ (edit.removed = functionWord ∨ edit.removed = functionWord ++ [' ']) :=
  ⟨h.kept, h.removed.elim Or.inr fun h => Or.inl h.1⟩

theorem Drops.through {edit : Edit} (h : Drops state place edit) (frames : Frames) (before : Option Char)
    (rest : List Char) : frames.through before edit.consumed rest = frames := by
  obtain ⟨hkept, hremoved⟩ := h.consumed_cases
  rcases hkept with hkept | hkept <;> rcases hremoved with hremoved | hremoved <;>
    rw [Edit.consumed, hkept, hremoved] <;> rfl

/-- No word that is dropped begins with a brace. -/
theorem enter_of_drops {edit : Edit} (h : Drops state place edit) : state.enter place = state := by
  obtain ⟨hkept, -⟩ := h.consumed_cases
  obtain ⟨after, hafter⟩ := (Cursor.holdsWord_iff.1 h.word).1
  have hplace : place = ⟨place.before, edit.kept ++ functionWord ++ after⟩ := by rw [hafter]
  rw [hplace]
  rcases hkept with hkept | hkept <;> rw [hkept] <;> rfl

theorem frames_step {rest : List Char} (hrest : place.rest ≠ [])
    (hread : place.rest = (edit state place).consumed ++ rest) :
    (step state place).2.frames = state.frames.through place.before (edit state place).consumed rest := by
  have henter : (step state place).2.frames = state.frames.over place := frames_enter state place
  have hthrough : ∀ {c text}, place.rest = c :: (text ++ rest) →
      state.frames.through place.before (c :: text) rest = (state.frames.over place).through (some c) text rest := by
    intro c text h
    rw [Frames.through, ← h]
  rw [henter]
  rcases edit_forms state hrest with ⟨-, hedit⟩ | hdrops | ⟨c, text, -, hedit, -⟩
  · rw [hedit, Edit.consumed_copy] at hread ⊢
    exact (hthrough hread).symm
  · rw [hdrops.through, ← frames_enter, enter_of_drops hdrops]
  · rw [hedit, Edit.consumed_copy] at hread ⊢
    exact (hthrough hread).symm

/-! ## A whole run -/

/-- Wherever the pass comes, it knows the braces that are open there. -/
theorem reaches_frames (h : methodPass.Reaches text done state place) :
    framesAt (readBy done) place.rest = state.frames := by
  induction h with
  | start => rfl
  | @step done state place h hrest ih =>
      obtain ⟨rest, hread⟩ := edit_consumed_prefix state place
      have hadvance := Cursor.advance_append hread.symm
      have hbefore : (readBy done).getLast?.or none = place.before := by rw [Option.or_none, h.before_eq]
      rw [methodPass_step, readBy_append, readBy_cons, readBy_nil, List.append_nil]
      change framesAt (readBy done ++ (edit state place).consumed)
        (place.advance (edit state place).consumed.length).rest = _
      rw [hadvance, framesAt, Frames.through_append, hread, hbefore, frames_step hrest hread.symm, ← ih]
      rfl

theorem lastSolidAfter_append (before : Option Char) (a b : List Char) :
    lastSolidAfter before (a ++ b) = lastSolidAfter (lastSolidAfter before a) b := by
  simp only [lastSolidAfter, List.filter_append, List.getLast?_append, Option.or_assoc]

theorem reaches_lastSolid (h : methodPass.Reaches text done state place) :
    state.lastSolid = lastSolidAfter none (writtenBy done) := by
  induction h with
  | start => rfl
  | @step done state place h hrest ih =>
      rw [methodPass_step, writtenBy_append, lastSolidAfter_append, ← ih]
      simp [step]

theorem lastSolidAfter_isSome {before : Option Char} (h : before.isSome = true) (text : List Char) :
    (lastSolidAfter before text).isSome = true := by
  simp [lastSolidAfter, h]

theorem over_opening (hbraces : frames.braces = []) (hover : (frames.over place).braces ≠ []) :
    place.holdsWord classWord = false ∧ place.rest.head? = some '{' := by
  by_cases hclass : place.holdsWord classWord = true
  · rw [Frames.over, if_pos hclass] at hover
    exact absurd hbraces hover
  by_cases hopening : place.rest.head? = some '{'
  · exact ⟨Bool.eq_false_iff.2 hclass, hopening⟩
  · rw [Frames.over, if_neg hclass, if_neg hopening] at hover
    split_ifs at hover
    · simp [hbraces] at hover
    · exact absurd hbraces hover

/-- Where the first brace opens it is read, and copied. -/
theorem written_of_opens (hrest : place.rest ≠ []) (hbraces : state.braces = [])
    (hopens : (step state place).2.braces ≠ []) : (edit state place).written = ['{'] := by
  have hover : (state.frames.over place).braces ≠ [] := by rwa [← frames_enter]
  obtain ⟨hclass, hopening⟩ := over_opening hbraces hover
  rcases edit_forms state hrest with ⟨hword, -⟩ | hdrops | ⟨c, rest, hc, hedit, -⟩
  · rw [hclass] at hword
    cases hword
  · obtain ⟨after, hafter⟩ := (Cursor.holdsWord_iff.1 hdrops.word).1
    rcases hdrops.kept with hkept | hkept <;> rw [← hafter, hkept] at hopening <;> cases hopening
  · obtain rfl : c = '{' := by simpa [hc] using hopening
    rw [hedit, Edit.written_copy]

/-- Inside braces something has been written. -/
theorem reaches_solid (h : methodPass.Reaches text done state place) (hbraces : state.braces ≠ []) :
    state.lastSolid.isSome = true := by
  induction h with
  | start => exact absurd rfl hbraces
  | @step done state place h hrest ih =>
      rw [methodPass_step] at hbraces ⊢
      by_cases hnone : state.braces = []
      · have hsolid : isBlank '{' = false := by decide
        simp [step, written_of_opens hrest hnone hbraces, lastSolidAfter, hsolid]
      · exact lastSolidAfter_isSome (ih hnone) _

end Methods

end HangulScript
