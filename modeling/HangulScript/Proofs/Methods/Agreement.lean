import Mathlib.Data.List.Infix
import HangulScript.Proofs.Methods.Locality
import HangulScript.Proofs.Pass.Pieces
import HangulScript.Proofs.Scan.Segments

/-!
# What the method pass is told by the text before a place

Of the text before a place the method pass keeps the open braces and whether a `class` waits for one, and whether a member
can begin. From two states that agree on these it makes the same edits.
-/

namespace HangulScript

open Text Keywords

namespace Methods

variable {state other : State} {place : Cursor} {region : Region} {text text' out : List Char} {final : State} {m : Char}

/-- The same braces are open in the two states, and a member can begin in both or in neither. -/
structure Agree (state other : State) : Prop where
  frames : state.frames = other.frames
  atMember : state.atMember = other.atMember

theorem Agree.refl (state : State) : Agree state state :=
  ⟨rfl, rfl⟩

theorem Agree.edit_eq (h : Agree state other) (place : Cursor) : edit state place = edit other place := by
  unfold edit
  rw [h.atMember]

/-! ## One step -/

theorem lastSolidAfter_eq_or (before : Option Char) (text : List Char) :
    lastSolidAfter before text = (lastSolidAfter none text).or before := by
  simp [lastSolidAfter]

/-- A step that writes nothing but blanks passes no brace and no `class`. -/
theorem enter_of_blank (hrest : place.rest ≠ []) (hblank : lastSolidAfter none (edit state place).written = none) :
    state.enter place = state := by
  rcases edit_forms state hrest with ⟨-, hedit⟩ | hdrops | ⟨c, rest, hplace, hedit, hclass, -⟩
  · rw [hedit, Edit.written_copy] at hblank
    exact absurd hblank (by decide)
  · exact enter_of_drops hdrops
  · rw [hedit, Edit.written_copy] at hblank
    have hsolid : isBlank '{' = false ∧ isBlank '}' = false := by decide
    have hopening : c ≠ '{' := by
      rintro rfl
      simp [lastSolidAfter, hsolid.1] at hblank
    have hclosing : c ≠ '}' := by
      rintro rfl
      simp [lastSolidAfter, hsolid.2] at hblank
    simp [State.enter, hclass, hplace, hopening, hclosing]

theorem Agree.enter (h : Agree state other) (place : Cursor) : (state.enter place).frames = (other.enter place).frames := by
  rw [frames_enter, frames_enter, h.frames]

theorem Agree.step_atMember (h : Agree state other) (hrest : place.rest ≠ []) :
    (step state place).2.atMember = (step other place).2.atMember := by
  have hbraces : (state.enter place).braces = (other.enter place).braces := congrArg Frames.braces (h.enter place)
  have hedit := h.edit_eq place
  cases hwritten : lastSolidAfter none (edit state place).written with
  | some c =>
      simp only [step, State.atMember, hbraces]
      rw [lastSolidAfter_eq_or, lastSolidAfter_eq_or other.lastSolid, ← hedit, hwritten]
      rfl
  | none =>
      have hstay := enter_of_blank hrest hwritten
      have hstay' : other.enter place = other := enter_of_blank hrest (hedit ▸ hwritten)
      simp only [step, State.atMember, hstay, hstay']
      rw [lastSolidAfter_eq_or, lastSolidAfter_eq_or other.lastSolid, ← hedit, hwritten, Option.none_or, Option.none_or]
      exact h.atMember

theorem Agree.step (h : Agree state other) (hrest : place.rest ≠ []) :
    Agree (step state place).2 (step other place).2 :=
  ⟨h.enter place, h.step_atMember hrest⟩

/-! ## A whole run -/

/-- From states that agree the pass makes the same edits and comes to states that agree. -/
theorem Agree.runFrom (h : Agree state other) (offset : Nat) (place : Cursor) :
    (methodPass.runFrom offset state place).edits = (methodPass.runFrom offset other place).edits ∧
      Agree (methodPass.runFrom offset state place).final (methodPass.runFrom offset other place).final := by
  induction hn : place.rest.length using Nat.strongRecOn generalizing offset state other place with
  | ind n ih =>
      by_cases hrest : place.rest = []
      · obtain ⟨hedits, hfinal⟩ := methodPass.edits_runFrom_nil offset state hrest
        obtain ⟨hedits', hfinal'⟩ := methodPass.edits_runFrom_nil offset other hrest
        rw [hedits, hedits', hfinal, hfinal']
        exact ⟨rfl, h⟩
      · obtain ⟨hedits, hfinal⟩ := methodPass.edits_runFrom offset state hrest
        obtain ⟨hedits', hfinal'⟩ := methodPass.edits_runFrom offset other hrest
        have hedit : (methodPass.step state place).1 = (methodPass.step other place).1 := h.edit_eq place
        have hlt := methodPass.length_advance_lt state hrest
        rw [hedits, hedits', hfinal, hfinal', hedit]
        rw [hedit] at hlt
        obtain ⟨hlater, hagree⟩ := ih _ (hn ▸ hlt) (h.step hrest)
          (offset + byteLength (methodPass.step other place).1.consumed) _ rfl
        exact ⟨congrArg _ hlater, hagree⟩

theorem leads_lastSolid (h : methodPass.Leads state place out final) :
    final.lastSolid = lastSolidAfter state.lastSolid out := by
  induction h with
  | done => rfl
  | step _ _ ih =>
      rw [ih, lastSolidAfter_append]
      rfl

theorem leads_frames (h : methodPass.Leads state place out final) :
    final.frames = state.frames.through place.before place.rest [] := by
  induction h with
  | done hrest => rw [hrest]; rfl
  | @step state final place out hrest h ih =>
      obtain ⟨rest, hread⟩ := edit_consumed_prefix state place
      simp only [methodPass_step, step_fst, Cursor.advance_append hread.symm] at ih
      rw [ih, frames_step hrest hread.symm, ← hread, Frames.through_append, List.append_nil]

/-! ## Texts with the same effect -/

/-- The state after a text by itself. -/
def past (state : State) (text : List Char) : State :=
  (methodPass.runIn state text).final

/-- Wherever the region has just been opened, the pass comes past the two texts to states that agree. -/
def SameEffect (region : Region) (text other : List Char) : Prop :=
  ∀ state m, Opened region m → state.lastSolid = some m → Agree (past state text) (past state other)

theorem leads_past (state : State) (text : List Char) :
    methodPass.Leads state (Cursor.start text) (methodPass.runIn state text).output (past state text) :=
  methodPass.leads_runFrom 0 state (Cursor.start text)

/-- The last solid character that is written is the last one that is read, unless the pass drops that one. -/
theorem leads_lastSolid_read {last : Option Char} (h : methodPass.Leads state place out final)
    (hread : state.lastSolid = last ∨ last = some 'n') :
    final.lastSolid = lastSolidAfter last place.rest ∨ lastSolidAfter last place.rest = some 'n' := by
  induction h generalizing last with
  | done hrest => rwa [hrest]
  | @step state final place out hrest h ih =>
      obtain ⟨rest, hread'⟩ := edit_consumed_prefix state place
      simp only [methodPass_step, step_fst, Cursor.advance_append hread'.symm] at ih
      rw [← hread', lastSolidAfter_append]
      apply ih
      rcases edit_cases state hrest with ⟨piece, -, hcopy⟩ | hdrops
      · rw [step, hcopy, Edit.written_copy, Edit.consumed_copy, lastSolidAfter_eq_or, lastSolidAfter_eq_or last]
        rcases hread with hsame | hlast
        · exact Or.inl (by rw [hsame])
        · cases lastSolidAfter none piece with
          | none => exact Or.inr hlast
          | some c => exact Or.inl rfl
      · -- the word that is dropped ends in this letter
        refine Or.inr ?_
        have hword : ∀ last, lastSolidAfter last functionWord = some 'n' ∧
            lastSolidAfter last (functionWord ++ [' ']) = some 'n' := fun _ => ⟨rfl, rfl⟩
        rw [Edit.consumed, lastSolidAfter_append]
        rcases hdrops.consumed_cases.2 with hremoved | hremoved <;> rw [hremoved]
        · exact (hword _).1
        · exact (hword _).2

theorem past_frames (state : State) (text : List Char) : (past state text).frames = state.frames.through none text [] :=
  leads_frames (leads_past state text)

theorem past_lastSolid {last : Option Char} (h : lastSolidAfter state.lastSolid text = last) (hlast : last ≠ some 'n') :
    (past state text).lastSolid = last := by
  rcases leads_lastSolid_read (leads_past state text) (Or.inl rfl) with hsame | hdropped
  · exact hsame.trans h
  · exact absurd (h.symm.trans hdropped) hlast

/-- A text without braces and without the word `class` leaves everything open as it was. -/
theorem Frames.through_plain (frames : Frames) (before : Option Char) (hopening : '{' ∉ text) (hclosing : '}' ∉ text)
    (hclass : ¬ classWord <:+: text) : frames.through before text [] = frames := by
  induction text generalizing before with
  | nil => rfl
  | cons c text ih =>
      rw [List.mem_cons, not_or] at hopening hclosing
      have hword : (Cursor.mk before (c :: text)).holdsWord classWord = false :=
        Bool.eq_false_iff.2 fun hholds => hclass (Cursor.holdsWord_iff.1 hholds).1.isInfix
      have hover : frames.over ⟨before, c :: text⟩ = frames := by
        simp [Frames.over, hword, Ne.symm hopening.1, Ne.symm hclosing.1]
      rw [Frames.through, List.append_nil, hover]
      exact ih (some c) hopening.2 hclosing.2 fun hword => hclass (hword.trans (List.suffix_cons c text).isInfix)

/-- Two texts have the same effect if they open and close braces in the same way and end after solid characters that
both begin a member or neither, and neither of which can be dropped. -/
theorem sameEffect_of_frames (hframes : ∀ frames : Frames, frames.through none text [] = frames.through none text' [])
    (hlast : ∀ m, Opened region m → lastSolidAfter (some m) text ≠ some 'n' ∧
      lastSolidAfter (some m) text' ≠ some 'n' ∧
      canBeginMember (lastSolidAfter (some m) text) = canBeginMember (lastSolidAfter (some m) text')) :
    SameEffect region text text' := by
  intro state m hopened hsolid
  obtain ⟨hword, hword', hmember⟩ := hlast m hopened
  have hbraces : (past state text).frames = (past state text').frames := by
    rw [past_frames, past_frames, hframes]
  refine ⟨hbraces, ?_⟩
  have hopen : (past state text).braces = (past state text').braces := congrArg Frames.braces hbraces
  rw [State.atMember, State.atMember, hopen, past_lastSolid (by rw [hsolid]) hword, past_lastSolid (by rw [hsolid]) hword',
    hmember]

/-- A text without braces and without the word `class`, after which no member begins whether or not words in it are
dropped. -/
structure Calm (text : List Char) : Prop where
  opening : '{' ∉ text
  closing : '}' ∉ text
  word : ¬ classWord <:+: text
  last : canBeginMember (lastSolidAfter none text) = false
  kept : lastSolidAfter none text ≠ some 'n'

instance (text : List Char) : Decidable (Calm text) :=
  decidable_of_iff ('{' ∉ text ∧ '}' ∉ text ∧ ¬ classWord <:+: text ∧ canBeginMember (lastSolidAfter none text) = false ∧
      lastSolidAfter none text ≠ some 'n')
    ⟨fun ⟨opening, closing, word, last, kept⟩ => ⟨opening, closing, word, last, kept⟩,
      fun ⟨opening, closing, word, last, kept⟩ => ⟨opening, closing, word, last, kept⟩⟩

theorem Calm.lastSolidAfter_eq (h : Calm text) (before : Option Char) :
    lastSolidAfter before text = lastSolidAfter none text := by
  rw [lastSolidAfter_eq_or]
  cases hlast : lastSolidAfter none text with
  | none => exact absurd (hlast ▸ h.last) (by decide)
  | some c => rfl

theorem Calm.sameEffect (h : Calm text) (h' : Calm text') : SameEffect region text text' := by
  refine sameEffect_of_frames (fun frames => ?_) fun m _ => ?_
  · rw [frames.through_plain none h.opening h.closing h.word, frames.through_plain none h'.opening h'.closing h'.word]
  · rw [h.lastSolidAfter_eq, h'.lastSolidAfter_eq, h.last, h'.last]
    exact ⟨h.kept, h'.kept, rfl⟩

end Methods

end HangulScript
