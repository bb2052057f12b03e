import HangulScript.Conversion.Methods
import HangulScript.Proofs.Scan.Survivors
import HangulScript.Proofs.Text.Cuts

/-!
# What the method pass drops

The pass copies its text, only that it drops the word `function` where a member begins. The regions of the text do not
depend on what it drops.
-/

namespace HangulScript

open Text

/-! ## Passes that only drop -/

section

variable {σ : Type} {pass : Pass σ} {text : List Char} {done : List (Visit σ)} {state : σ} {place : Cursor}

/-- Some visit removed the character at the byte offset. -/
def droppedBy (visits : List (Visit σ)) (offset : Nat) : Bool :=
  visits.any fun v => v.removedAt ≤ offset && offset < v.removedAt + byteLength v.edit.removed

theorem droppedBy_append (vs ws : List (Visit σ)) (offset : Nat) :
    droppedBy (vs ++ ws) offset = (droppedBy vs offset || droppedBy ws offset) := by
  simp [droppedBy]

theorem droppedBy_iff {visits : List (Visit σ)} {offset : Nat} :
    droppedBy visits offset = true ↔
      ∃ v ∈ visits, v.removedAt ≤ offset ∧ offset < v.removedAt + byteLength v.edit.removed := by
  simp [droppedBy]

theorem droppedBy_of_le (h : pass.Reaches text done state place) {offset : Nat}
    (hle : byteLength (readBy done) ≤ offset) : droppedBy done offset = false := by
  induction h with
  | start => rfl
  | @step done state place h hrest ih =>
      simp only [readBy_append, readBy_cons, readBy_nil, List.append_nil, byteLength_append, Edit.consumed] at hle
      rw [droppedBy_append, ih (by omega), Bool.false_or]
      refine Bool.eq_false_iff.2 fun hdropped => ?_
      obtain ⟨v, hv, -, hlt⟩ := droppedBy_iff.1 hdropped
      obtain rfl := List.mem_singleton.1 hv
      simp only [Visit.removedAt] at hlt
      omega

/-- A character that a run dropped was removed by one of its visits, after what that visit kept. -/
theorem exists_removed_of_droppedBy {a b : List Char} {c : Char} (htext : text = a ++ c :: b)
    (hgone : droppedBy (pass.run text).visits (byteLength a) = true) :
    ∃ earlier v q₁ q₂, v ∈ (pass.run text).visits ∧ pass.Reaches text earlier v.state v.place ∧ v.place.rest ≠ [] ∧
      v.edit = (pass.step v.state v.place).1 ∧ a = readBy earlier ++ v.edit.kept ++ q₁ ∧
      v.edit.removed = q₁ ++ c :: q₂ := by
  obtain ⟨v, hv, hle, hlt⟩ := droppedBy_iff.1 hgone
  obtain ⟨earlier, hreach, hrest, hoffset, hedit, -⟩ := Pass.of_mem_run hv
  obtain ⟨after, hafter⟩ := Pass.consumed_prefix pass v.state v.place
  rw [← hedit] at hafter
  have hpieces : a ++ c :: b = (readBy earlier ++ v.edit.kept) ++ (v.edit.removed ++ after) := by
    rw [← htext, hreach.text_eq, ← hafter]
    simp [Edit.consumed]
  rw [Visit.removedAt, hoffset, ← byteLength_append] at hle hlt
  obtain ⟨q₁, q₂, ha, hremoved⟩ := split_of_byteLength hpieces hle hlt
  exact ⟨earlier, v, q₁, q₂, hv, hreach, hrest, hedit, ha, hremoved⟩

/-- A visit drops nothing before its place, nothing of what it keeps, and all that it removes. -/
theorem survivors_append_visit {v : Visit σ} (hoffset : v.offset = byteLength (readBy done))
    (hdone : ∀ i, byteLength (readBy done) ≤ i → droppedBy done i = false) :
    survivors (droppedBy (done ++ [v])) 0 (readBy (done ++ [v])) =
      survivors (droppedBy done) 0 (readBy done) ++ v.edit.kept := by
  have hnew : ∀ i, droppedBy [v] i = true ↔
      byteLength (readBy done) + byteLength v.edit.kept ≤ i ∧
        i < byteLength (readBy done) + byteLength v.edit.kept + byteLength v.edit.removed := by
    intro i
    simp [droppedBy, Visit.removedAt, hoffset]
  have hkeeps : ∀ i, i < byteLength (readBy done) + byteLength v.edit.kept → droppedBy [v] i = false := by
    intro i hlt
    refine Bool.eq_false_iff.2 fun hdropped => ?_
    have := (hnew i).1 hdropped
    omega
  have hearlier : survivors (droppedBy (done ++ [v])) 0 (readBy done) = survivors (droppedBy done) 0 (readBy done) := by
    refine survivors_congr fun i _ hlt => ?_
    rw [droppedBy_append, hkeeps i (by omega), Bool.or_false]
  have hkept : survivors (droppedBy (done ++ [v])) (byteLength (readBy done)) v.edit.kept = v.edit.kept := by
    refine survivors_of_kept fun i hle hlt => ?_
    rw [droppedBy_append, hdone i hle, hkeeps i hlt, Bool.or_false]
  have hremoved : survivors (droppedBy (done ++ [v])) (byteLength (readBy done) + byteLength v.edit.kept)
      v.edit.removed = [] := by
    refine survivors_of_gone fun i hle hlt => ?_
    rw [droppedBy_append, (hnew i).2 ⟨hle, hlt⟩, Bool.or_true]
  simp only [readBy_append, readBy_cons, readBy_nil, Edit.consumed, List.append_nil, survivors_append, Nat.zero_add,
    hearlier, hkept, hremoved]

theorem survivors_readBy (hdrops : ∀ state place, (pass.step state place).1.inserted = [])
    (h : pass.Reaches text done state place) : survivors (droppedBy done) 0 (readBy done) = writtenBy done := by
  induction h with
  | start => rfl
  | @step done state place h hrest ih =>
      rw [survivors_append_visit rfl fun i hle => droppedBy_of_le h hle, ih]
      simp [Edit.written, hdrops]

/-- What is left of the text before a place is what was written for it. -/
theorem survivors_run (hdrops : ∀ state place, (pass.step state place).1.inserted = [])
    (h : pass.Reaches text done state place) :
    survivors (droppedBy (pass.run text).visits) 0 (readBy done) = writtenBy done := by
  rw [← survivors_readBy hdrops h, h.run_eq]
  refine survivors_congr fun i _ hlt => ?_
  rw [droppedBy_append]
  -- what is visited from the place on is dropped after it
  have hlater : droppedBy (pass.runFrom (byteLength (readBy done)) state place).visits i = false := by
    refine Bool.eq_false_iff.2 fun hdropped => ?_
    obtain ⟨v, hv, hle, -⟩ := droppedBy_iff.1 hdropped
    have hoffset := pass.le_offset_of_mem_runFrom hv
    rw [Visit.removedAt] at hle
    omega
  rw [hlater, Bool.or_false]

/-- What is left of the text after a place is what is written from there. -/
theorem leads_survivors (hdrops : ∀ state place, (pass.step state place).1.inserted = [])
    (h : pass.Reaches text done state place) :
    pass.Leads state place (survivors (droppedBy (pass.run text).visits) (byteLength (readBy done)) place.rest)
      (pass.run text).final := by
  obtain ⟨_, _, hend⟩ := pass.run_reaches text
  have hleft := survivors_readBy hdrops hend
  have hread : readBy (pass.run text).visits = text := pass.source_run text
  have hout : writtenBy (pass.run text).visits = writtenBy done ++
      (pass.runFrom (byteLength (readBy done)) state place).output := by
    rw [h.run_eq, writtenBy_append]
    rfl
  have htail := pass.leads_runFrom (byteLength (readBy done)) state place
  rw [hread, hout] at hleft
  conv_lhs at hleft => rw [h.text_eq, survivors_append, ← h.text_eq, survivors_run hdrops h, Nat.zero_add]
  rw [List.append_cancel_left hleft, h.run_eq]
  exact htail

/-- What a visit keeps is not dropped by another one. -/
theorem droppedBy_kept {v : Visit σ} (hv : v ∈ (pass.run text).visits) {offset : Nat} (hle : v.offset ≤ offset)
    (hlt : offset < v.offset + byteLength v.edit.kept) : droppedBy (pass.run text).visits offset = false := by
  refine Bool.eq_false_iff.2 fun hdropped => ?_
  obtain ⟨w, hw, hfrom, hto⟩ := droppedBy_iff.1 hdropped
  obtain ⟨_, _, hend⟩ := pass.run_reaches text
  obtain ⟨earlier, -, -, -, -, later, hvisits⟩ := Pass.of_mem_run hv
  have hascending := hend.ascending
  rw [hvisits, List.pairwise_append, List.pairwise_cons] at hascending
  obtain ⟨-, ⟨hlater, -⟩, hearlier⟩ := hascending
  rw [hvisits, List.mem_append, List.mem_cons] at hw
  simp only [Visit.removedAt, Edit.consumed, byteLength_append] at hfrom hto hlater hearlier
  rcases hw with hw | rfl | hw
  · have := hearlier w hw v List.mem_cons_self
    omega
  · omega
  · have := hlater w hw
    omega

theorem survivors_append_kept {v : Visit σ} (hv : v ∈ (pass.run text).visits) (hoffset : v.offset = byteLength (readBy done))
    {a b : List Char} (hkept : v.edit.kept = a ++ b) :
    survivors (droppedBy (pass.run text).visits) 0 (readBy done ++ a) =
      survivors (droppedBy (pass.run text).visits) 0 (readBy done) ++ a := by
  rw [survivors_append, Nat.zero_add]
  congr 1
  refine survivors_of_kept fun i hle hlt => droppedBy_kept hv (by omega) ?_
  rw [hkept, byteLength_append]
  omega

/-- What a visit reads and no visit drops is kept by it. -/
theorem kept_of_not_droppedBy {v : Visit σ} (hv : v ∈ (pass.run text).visits) {a b : List Char} {c : Char}
    (hconsumed : v.edit.consumed = a ++ c :: b)
    (hkept : droppedBy (pass.run text).visits (v.offset + byteLength a) = false) : ∃ more, v.edit.kept = a ++ c :: more := by
  rw [Edit.consumed] at hconsumed
  rcases append_cases hconsumed with ⟨q, rfl, hremoved⟩ | ⟨more, hne, hmore, hrest⟩
  · refine absurd (droppedBy_iff.2 ⟨v, hv, ?_, ?_⟩) (Bool.eq_false_iff.1 hkept)
    · rw [Visit.removedAt, byteLength_append]
      omega
    · have hpos := c.utf8Size_pos
      simp only [Visit.removedAt, hremoved, byteLength_append, byteLength_cons]
      omega
  · obtain ⟨d, more, rfl⟩ := List.exists_cons_of_ne_nil hne
    exact ⟨more, by rw [hmore, (List.cons.inj hrest).1]⟩

theorem droppedBy_changes (visits : List (Visit σ)) : droppedBy (visits.filter (·.edit.changes)) = droppedBy visits := by
  funext i
  rw [Bool.eq_iff_iff, droppedBy_iff, droppedBy_iff]
  constructor
  · rintro ⟨v, hv, h⟩
    exact ⟨v, (List.mem_filter.1 hv).1, h⟩
  · rintro ⟨v, hv, hle, hlt⟩
    refine ⟨v, List.mem_filter.2 ⟨hv, ?_⟩, hle, hlt⟩
    cases hremoved : v.edit.removed with
    | nil =>
        rw [hremoved, byteLength_nil] at hlt
        omega
    | cons c removed => simp [Edit.changes, hremoved]

end

namespace Methods

/-- What an edit drops at a place: the word `function` with the space after it, where a member begins. -/
structure Drops (state : State) (place : Cursor) (edit : Edit) : Prop where
  atMember : state.atMember = true
  kept : edit.kept = [] ∨ edit.kept = asyncLead
  word : place.holdsWord (edit.kept ++ functionWord) = true
  removed : edit.removed = functionWord ++ [' '] ∨
    edit.removed = functionWord ∧ (place.rest.drop (edit.kept ++ functionWord).length).head? ≠ some ' '
  inserted : edit.inserted = []

variable {text : List Char} {done : List (Visit State)} {state : State} {place : Cursor}

theorem elision_cases (after : List Char) :
    elision (functionWord ++ after) = functionWord ++ [' '] ∨
      elision (functionWord ++ after) = functionWord ∧ after.head? ≠ some ' ' := by
  unfold elision
  rw [List.drop_left]
  split_ifs with hspace
  · obtain ⟨rest, rfl⟩ := List.head?_eq_some_iff.1 hspace
    exact Or.inl rfl
  · exact Or.inr ⟨by simp, hspace⟩

theorem edit_cases (state : State) (hrest : place.rest ≠ []) :
    (∃ piece, piece ≠ [] ∧ edit state place = .copy piece) ∨ Drops state place (edit state place) := by
  unfold edit
  split_ifs with hclass hasync hbare
  · exact Or.inl ⟨_, take_ne_nil (by decide) hrest, rfl⟩
  · obtain ⟨hmember, hword⟩ := Bool.and_eq_true_iff.1 hasync
    obtain ⟨after, hafter⟩ := (Cursor.holdsWord_iff.1 hword).1
    have hlead : place.rest.take asyncLead.length = asyncLead := by simp [← hafter]
    have hdrop : place.rest.drop asyncLead.length = functionWord ++ after := by simp [← hafter]
    refine Or.inr ⟨hmember, Or.inr hlead, by rwa [hlead], ?_, rfl⟩
    rw [hlead, hdrop, ← hafter, List.drop_left]
    exact elision_cases after
  · obtain ⟨hmember, hword⟩ := Bool.and_eq_true_iff.1 hbare
    obtain ⟨after, hafter⟩ := (Cursor.holdsWord_iff.1 hword).1
    refine Or.inr ⟨hmember, Or.inl rfl, hword, ?_, rfl⟩
    rw [List.nil_append, ← hafter, List.drop_left]
    exact elision_cases after
  · exact Or.inl ⟨_, take_ne_nil (by decide) hrest, rfl⟩

theorem edit_inserted (state : State) (place : Cursor) : (edit state place).inserted = [] := by
  unfold edit
  split_ifs <;> rfl

@[simp] theorem methodPass_step (state : State) (place : Cursor) : methodPass.step state place = step state place := rfl

@[simp] theorem step_fst (state : State) (place : Cursor) : (step state place).1 = edit state place := rfl

theorem bareMethods_eq_survivors (text : List Char) :
    bareMethods text = survivors (droppedBy (methodPass.run text).visits) 0 text := by
  obtain ⟨_, _, hend⟩ := methodPass.run_reaches text
  have hdrops : ∀ state place, (methodPass.step state place).1.inserted = [] := edit_inserted
  have hleft := survivors_readBy hdrops hend
  rw [← Trace.source_eq, Pass.source_run] at hleft
  exact hleft.symm

/-! ## What stands before the word -/

theorem takesNext_of_isBlank {c : Char} (h : isBlank c = true) : takesNext c = false := by
  refine Bool.eq_false_iff.2 fun htakes => ?_
  simp only [takesNext, List.contains_eq_mem, List.mem_cons, List.not_mem_nil, or_false, decide_eq_true_eq] at htakes
  rcases htakes with rfl | rfl | rfl | rfl <;> revert h <;> decide

theorem takesNext_of_canBeginMember {c : Char} (h : canBeginMember (some c) = true) : takesNext c = false := by
  refine Bool.eq_false_iff.2 fun htakes => ?_
  simp only [takesNext, List.contains_eq_mem, List.mem_cons, List.not_mem_nil, or_false, decide_eq_true_eq] at htakes
  rcases htakes with rfl | rfl | rfl | rfl <;> cases h

theorem lastSolidAfter_concat (before : Option Char) (text : List Char) (c : Char) :
    lastSolidAfter before (text ++ [c]) = if isBlank c then lastSolidAfter before text else some c := by
  cases h : isBlank c <;> simp [lastSolidAfter, h]

theorem Drops.mem_word {edit : Edit} (h : Drops state place edit) {c : Char} (hc : c ∈ edit.removed) :
    c ∈ functionWord ++ [' '] := by
  rcases h.removed with hremoved | ⟨hremoved, -⟩
  · exact hremoved ▸ hc
  · exact List.mem_append_left _ (hremoved ▸ hc)

theorem marksRegion_of_mem_removed {edit : Edit} (h : Drops state place edit) {c : Char} (hc : c ∈ edit.removed) :
    marksRegion c = false := by
  have hall : (functionWord ++ [' ']).all (!marksRegion ·) = true := by decide
  simpa using List.all_eq_true.1 hall c (h.mem_word hc)

/-- A character that is dropped belongs to a word that some visit drops. -/
theorem drops_of_droppedBy {a b : List Char} {c : Char} (htext : text = a ++ c :: b)
    (hgone : droppedBy (methodPass.run text).visits (byteLength a) = true) :
    ∃ (earlier : List (Visit State)) (v : Visit State) (q₁ q₂ : List Char),
      methodPass.Reaches text earlier v.state v.place ∧ v.edit = edit v.state v.place ∧
      Drops v.state v.place v.edit ∧ a = readBy earlier ++ v.edit.kept ++ q₁ ∧ v.edit.removed = q₁ ++ c :: q₂ := by
  obtain ⟨earlier, v, q₁, q₂, -, hreach, hrest, hedit, ha, hremoved⟩ := exists_removed_of_droppedBy htext hgone
  have hedit : v.edit = edit v.state v.place := hedit
  rcases edit_cases v.state hrest with ⟨piece, -, hcopy⟩ | hdrops
  · rw [hedit, hcopy] at hremoved
    exact absurd hremoved.symm (List.append_ne_nil_of_right_ne_nil q₁ (List.cons_ne_nil c q₂))
  · exact ⟨earlier, v, q₁, q₂, hreach, hedit, hedit ▸ hdrops, ha, hremoved⟩

/-- Only the letters of the word and the space after it are dropped. -/
theorem mem_word_of_droppedBy {a b : List Char} {c : Char} (htext : text = a ++ c :: b)
    (hgone : droppedBy (methodPass.run text).visits (byteLength a) = true) : c ∈ functionWord ++ [' '] := by
  obtain ⟨_, _, _, _, -, -, hdrops, -, hremoved⟩ := drops_of_droppedBy htext hgone
  exact hdrops.mem_word (by simp [hremoved])

/-- The character before a place is the last solid one that was written, or it does not take the next one along. -/
theorem before_cases (h : methodPass.Reaches text done state place) :
    ∀ x, place.before = some x → state.lastSolid = some x ∨ takesNext x = false := by
  induction h with
  | start => intro x hx; cases hx
  | @step done state place h hrest ih =>
      intro x hx
      obtain ⟨after, hafter⟩ := Pass.consumed_prefix methodPass state place
      rw [Cursor.advance_append hafter.symm] at hx
      simp only [methodPass_step, step] at hx ⊢
      -- what is read last is also written last, unless it belongs to the dropped word
      rcases edit_cases state hrest with ⟨piece, hne, hedit⟩ | hdrops
      · obtain ⟨piece, y, rfl⟩ := List.eq_nil_or_concat piece |>.resolve_left hne
        simp only [hedit, Edit.consumed_copy, List.concat_eq_append, List.getLast?_concat, Option.some_or,
          Option.some.injEq] at hx
        subst hx
        rw [hedit, Edit.written_copy, List.concat_eq_append, lastSolidAfter_concat]
        cases hblank : isBlank y with
        | true => exact Or.inr (takesNext_of_isBlank hblank)
        | false => exact Or.inl rfl
      · have hne : (edit state place).removed ≠ [] := by
          rcases hdrops.removed with hremoved | ⟨hremoved, -⟩ <;> rw [hremoved] <;> decide
        obtain ⟨removed, y, hy⟩ := List.eq_nil_or_concat (edit state place).removed |>.resolve_left hne
        simp only [Edit.consumed, hy, List.concat_eq_append, ← List.append_assoc, List.getLast?_concat, Option.some_or,
          Option.some.injEq] at hx
        subst hx
        refine Or.inr (takesNext_of_not_marksRegion (marksRegion_of_mem_removed hdrops ?_))
        simp [hy]

/-- What stands before the dropped word does not take its first character along. -/
theorem takesNext_before_removed (h : methodPass.Reaches text done state place)
    (hdrops : Drops state place (edit state place)) {x : Char}
    (hx : (readBy done ++ (edit state place).kept).getLast? = some x) : takesNext x = false := by
  rcases hdrops.kept with hkept | hkept
  · rw [hkept, List.append_nil, ← h.before_eq] at hx
    rcases before_cases h x hx with hsolid | htakes
    · have hmember := (Bool.and_eq_true_iff.1 hdrops.atMember).2
      rw [hsolid] at hmember
      exact takesNext_of_canBeginMember hmember
    · exact htakes
  · rw [hkept, List.getLast?_append] at hx
    obtain rfl : ' ' = x := Option.some.inj hx
    rfl

theorem loose_droppedBy (text : List Char) : Loose (droppedBy (methodPass.run text).visits) text := by
  intro a c b htext hgone
  obtain ⟨earlier, v, q₁, q₂, hreach, hedit, hdrops, rfl, hremoved⟩ := drops_of_droppedBy htext hgone
  rw [hedit] at hdrops hremoved ⊢
  -- the neighbour is what stands before the dropped word, or a letter of the word itself
  refine ⟨marksRegion_of_mem_removed hdrops (by simp [hremoved]), fun x hx => ?_⟩
  rw [List.getLast?_append] at hx
  cases hlast : q₁.getLast? with
  | none =>
      rw [hlast, Option.none_or] at hx
      exact takesNext_before_removed hreach hdrops hx
  | some y =>
      rw [hlast, Option.some_or] at hx
      obtain rfl := Option.some.inj hx
      have hmem := List.mem_of_getLast? hlast
      exact takesNext_of_not_marksRegion (marksRegion_of_mem_removed hdrops (by simp [hremoved, hmem]))

end Methods

end HangulScript
