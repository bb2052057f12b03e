import HangulScript.Proofs.Methods.Braces

/-!
# Which words are dropped

The method pass drops the word `function` where the innermost open brace is one of a class body and a member can begin
there: after the last solid character that is left before the word, or before an `async` that stands before it.
-/

namespace HangulScript

open Text

namespace Methods

variable {text lead rest kept word a b : List Char} {done : List (Visit State)} {state : State} {place : Cursor}

/-! ## Where a member begins -/

def BeginsMember (last : Option Char) : Prop :=
  ∃ c ∈ ['{', ';', '}', '.'], last = some c

theorem canBeginMember_iff {last : Option Char} (h : last.isSome = true) :
    canBeginMember last = true ↔ BeginsMember last := by
  obtain ⟨c, rfl⟩ := Option.isSome_iff_exists.1 h
  by_cases hmem : c ∈ ['{', ';', '}', '.']
  · refine iff_of_true ?_ ⟨c, hmem, rfl⟩
    simp only [List.mem_cons, List.not_mem_nil, or_false] at hmem
    rcases hmem with rfl | rfl | rfl | rfl <;> rfl
  · refine iff_of_false ?_ ?_
    · simp only [List.mem_cons, List.not_mem_nil, or_false, not_or] at hmem
      simp [canBeginMember, hmem]
    · rintro ⟨d, hd, heq⟩
      exact hmem (Option.some.inj heq ▸ hd)

/-- A member of a class body begins between the two parts of a text, for what is left of the first. -/
def MemberAt (gone : Nat → Bool) (lead rest : List Char) : Prop :=
  (framesAt lead rest).braces.head? = some .classBody ∧ BeginsMember (lastSolidAfter none (survivors gone 0 lead))

theorem reaches_atMember (h : methodPass.Reaches text done state place) :
    state.atMember = true ↔ MemberAt (droppedBy (methodPass.run text).visits) (readBy done) place.rest := by
  have hleft : survivors (droppedBy (methodPass.run text).visits) 0 (readBy done) = writtenBy done :=
    survivors_run edit_inserted h
  rw [MemberAt, reaches_frames h, hleft, ← reaches_lastSolid h, State.atMember, Bool.and_eq_true, decide_eq_true_eq]
  refine and_congr_right fun hbraces => canBeginMember_iff (reaches_solid h ?_)
  rintro hnil
  change state.braces.head? = some .classBody at hbraces
  rw [hnil] at hbraces
  cases hbraces

/-! ## Places of words -/

theorem head?_of_begins {c : Char} (h : c :: word <+: rest) : rest.head? = some c := by
  obtain ⟨after, rfl⟩ := h
  rfl

/-- All characters of the word but the last belong to identifiers, so no free place lies inside it. -/
def Solid (word : List Char) : Prop :=
  ∀ c ∈ word.dropLast, isNameChar c = true

instance (word : List Char) : Decidable (Solid word) :=
  decidable_of_iff (word.dropLast.all isNameChar = true) List.all_eq_true

theorem Solid.eq_nil (h : Solid (a ++ b)) (hb : b ≠ []) (hfree : a.getLast?.any isNameChar = false) : a = [] := by
  rcases List.eq_nil_or_concat a with rfl | ⟨a, c, rfl⟩
  · rfl
  · have hmem : c ∈ (a.concat c ++ b).dropLast := by
      rw [List.dropLast_append_of_ne_nil hb]
      simp
    rw [List.concat_eq_append, List.getLast?_concat, Option.any_some, h c hmem] at hfree
    cases hfree

theorem solid_words : Solid classWord ∧ Solid functionWord ∧ Solid (functionWord ++ [' ']) ∧ Solid asyncLead := by
  decide +kernel

/-- A free place before the end is visited, or it is the place of the dropped word after an `async`. -/
theorem exists_visit_at (hne : rest ≠ []) (hfree : (Cursor.mk lead.getLast? rest).freeBefore = true) :
    ∃ earlier v, v ∈ (methodPass.run (lead ++ rest)).visits ∧
      methodPass.Reaches (lead ++ rest) earlier v.state v.place ∧ v.offset = byteLength (readBy earlier) ∧
      v.edit = edit v.state v.place ∧
      (readBy earlier = lead ∧ v.place = ⟨lead.getLast?, rest⟩ ∨
        Drops v.state v.place v.edit ∧ v.edit.kept = asyncLead ∧ lead = readBy earlier ++ asyncLead) := by
  obtain ⟨earlier, v, a, b, hv, hreach, hrest, hoffset, hedit, hlead, hconsumed, hb⟩ :=
    methodPass.exists_visit_over rfl hne
  refine ⟨earlier, v, hv, hreach, hoffset, hedit, ?_⟩
  by_cases ha : a = []
  · rw [ha, List.append_nil] at hlead
    subst hlead
    have hplace : v.place.rest = rest := List.append_cancel_left hreach.text_eq.symm
    refine Or.inl ⟨rfl, ?_⟩
    rw [← hreach.before_eq, ← hplace]
  · -- the place lies inside of what is read
    have hlast : a.getLast?.any isNameChar = false := by
      obtain ⟨a, c, rfl⟩ := List.eq_nil_or_concat a |>.resolve_left ha
      simpa [Cursor.freeBefore, hlead] using hfree
    have hedit : v.edit = edit v.state v.place := hedit
    obtain ⟨hclassWord, hfunctionWord, hspaced, hasync⟩ := solid_words
    rcases edit_forms v.state hrest with ⟨-, hcopy⟩ | hdrops | ⟨c, _, _, hcopy, -⟩
    · rw [hedit, hcopy, Edit.consumed_copy] at hconsumed
      exact absurd (Solid.eq_nil (hconsumed ▸ hclassWord) hb hlast) ha
    · rw [← hedit] at hdrops
      have hremoved : Solid v.edit.removed := by
        rcases hdrops.consumed_cases.2 with hremoved | hremoved <;> rw [hremoved] <;> assumption
      suffices h : a = asyncLead ∧ v.edit.kept = asyncLead from
        Or.inr ⟨hdrops, h.2, hlead.trans (by rw [h.1])⟩
      rcases hdrops.kept with hkept | hkept
      · rw [Edit.consumed, hkept, List.nil_append] at hconsumed
        exact absurd (Solid.eq_nil (hconsumed ▸ hremoved) hb hlast) ha
      · rw [Edit.consumed, hkept] at hconsumed
        rcases List.append_eq_append_iff.1 hconsumed with ⟨more, rfl, hmore⟩ | ⟨more, hmore, -⟩
        · have hlastMore : more.getLast?.any isNameChar = false := by
            rw [List.getLast?_append] at hlast
            cases h : more.getLast? with
            | none => rfl
            | some c => rwa [h, Option.some_or] at hlast
          obtain rfl := Solid.eq_nil (hmore ▸ hremoved) hb hlastMore
          exact ⟨List.append_nil _, hkept⟩
        · by_cases hmoreNil : more = []
          · exact ⟨by rw [hmore, hmoreNil, List.append_nil], hkept⟩
          · exact absurd (Solid.eq_nil (hmore ▸ hasync) hmoreNil hlast) ha
    · rw [hedit, hcopy, Edit.consumed_copy] at hconsumed
      rcases List.cons_eq_append_iff.1 hconsumed with ⟨hnil, -⟩ | ⟨_, -, hnil⟩
      · exact absurd hnil ha
      · exact absurd (List.append_eq_nil_iff.1 hnil.symm).2 hb

/-- The first letter tells whether the word stands alone or after an `async`. -/
theorem kept_unique {other : List Char} (hkept : kept = [] ∨ kept = asyncLead) (hother : other = [] ∨ other = asyncLead)
    (h : kept ++ functionWord <+: rest) (h' : other ++ functionWord <+: rest) : kept = other := by
  rcases hkept with rfl | rfl <;> rcases hother with rfl | rfl
  case inl.inl | inr.inr => rfl
  all_goals
    have hhead := (head?_of_begins h).symm.trans (head?_of_begins h')
    cases hhead

/-- Where a member begins, the word is dropped, with an `async` before it or alone. -/
theorem drops_of_atMember (hkept : kept = [] ∨ kept = asyncLead) (hmember : state.atMember = true)
    (hword : place.holdsWord (kept ++ functionWord) = true) :
    Drops state place (edit state place) ∧ (edit state place).kept = kept := by
  have hbegins := (Cursor.holdsWord_iff.1 hword).1
  have hrest : place.rest ≠ [] := by
    rintro hnil
    rw [hnil, List.prefix_nil] at hbegins
    exact List.append_ne_nil_of_right_ne_nil kept (List.cons_ne_nil _ _) hbegins
  rcases edit_forms state hrest with ⟨hclass, -⟩ | hdrops | ⟨_, _, -, -, -, hnone⟩
  · have hclassHead := head?_of_begins (Cursor.holdsWord_iff.1 hclass).1
    rcases hkept with rfl | rfl <;> cases hclassHead.symm.trans (head?_of_begins hbegins)
  · exact ⟨hdrops, kept_unique hdrops.kept hkept (Cursor.holdsWord_iff.1 hdrops.word).1 hbegins⟩
  · obtain ⟨hasync, hbare⟩ := hnone hmember
    rcases hkept with rfl | rfl
    · rw [List.nil_append, hbare] at hword
      cases hword
    · rw [hasync] at hword
      cases hword

/-! ## The dropped words -/

theorem changes_of_drops {edit : Edit} (h : Drops state place edit) : edit.changes = true := by
  rcases h.consumed_cases.2 with hremoved | hremoved <;> rw [Edit.changes, hremoved] <;> rfl

theorem change_cases {v : Visit State} (hv : v ∈ (methodPass.run text).changes) :
    ∃ earlier after, methodPass.Reaches text earlier v.state v.place ∧ Drops v.state v.place v.edit ∧
      v.place.rest = v.edit.kept ++ (v.edit.removed ++ after) ∧
      v.removedAt = byteLength (readBy earlier ++ v.edit.kept) := by
  obtain ⟨hv, hchanges⟩ := List.mem_filter.1 hv
  obtain ⟨earlier, hreach, hrest, hoffset, hedit, -⟩ := Pass.of_mem_run hv
  have hedit : v.edit = edit v.state v.place := hedit
  obtain ⟨after, hafter⟩ := edit_consumed_prefix v.state v.place
  rw [← hedit, Edit.consumed, List.append_assoc] at hafter
  rcases edit_cases v.state hrest with ⟨piece, -, hcopy⟩ | hdrops
  · rw [hedit, hcopy] at hchanges
    cases hchanges
  · refine ⟨earlier, after, hreach, hedit ▸ hdrops, hafter.symm, ?_⟩
    rw [Visit.removedAt, hoffset, byteLength_append]

/-- The word `function` at a place is dropped where a member begins before it, or before the `async` that it follows. -/
theorem exists_change_iff (hword : (Cursor.mk lead.getLast? rest).holdsWord functionWord = true) :
    (∃ v ∈ (methodPass.run (lead ++ rest)).changes, v.removedAt = byteLength lead) ↔
      ∃ head kept, (kept = [] ∨ kept = asyncLead) ∧ lead = head ++ kept ∧
        (Cursor.mk head.getLast? (kept ++ rest)).freeBefore = true ∧
        MemberAt (droppedBy (methodPass.run (lead ++ rest)).visits) head (kept ++ rest) := by
  constructor
  · rintro ⟨v, hv, hat⟩
    obtain ⟨earlier, after, hreach, hdrops, hrest, hremovedAt⟩ := change_cases hv
    have htext : lead ++ rest = readBy earlier ++ v.edit.kept ++ (v.edit.removed ++ after) := by
      rw [hreach.text_eq, hrest, List.append_assoc]
    have hlead : lead = readBy earlier ++ v.edit.kept := append_inj_of_byteLength htext (hat.symm.trans hremovedAt)
    have hplace : v.place.rest = v.edit.kept ++ rest := by
      rw [hlead] at htext
      rw [hrest, List.append_cancel_left htext]
    have hfree := (Cursor.holdsWord_iff.1 hdrops.word).2.1
    refine ⟨readBy earlier, v.edit.kept, hdrops.kept, hlead, ?_, ?_⟩
    · rw [← hreach.before_eq, ← hplace]
      exact hfree
    · rw [← hplace]
      exact (reaches_atMember hreach).1 hdrops.atMember
  · rintro ⟨head, kept, hkept, rfl, hfree, hmember⟩
    rw [List.append_assoc] at hmember ⊢
    obtain ⟨hbegins, -, hafter⟩ := Cursor.holdsWord_iff.1 hword
    have hne : kept ++ rest ≠ [] := by
      obtain ⟨after, rfl⟩ := hbegins
      exact List.append_ne_nil_of_right_ne_nil kept (List.cons_ne_nil _ _)
    obtain ⟨earlier, v, hv, hreach, hoffset, hedit, hat⟩ := exists_visit_at hne hfree
    rcases hat with ⟨hread, hplace⟩ | ⟨hdrops, hasync, hread⟩
    · have hstate : v.state.atMember = true := (reaches_atMember hreach).2 (by rwa [hread, hplace])
      have hholds : v.place.holdsWord (kept ++ functionWord) = true := by
        rw [hplace, Cursor.holdsWord_iff]
        refine ⟨(List.prefix_append_right_inj kept).2 hbegins, hfree, ?_⟩
        simpa [Cursor.freeAfter, List.drop_append] using hafter
      obtain ⟨hdrops, hdropped⟩ := drops_of_atMember hkept hstate hholds
      rw [← hedit] at hdrops hdropped
      refine ⟨v, List.mem_filter.2 ⟨hv, changes_of_drops hdrops⟩, ?_⟩
      rw [Visit.removedAt, hoffset, hread, hdropped, byteLength_append]
    · -- the word is the one that was dropped after that `async`
      rcases hkept with rfl | rfl
      · refine ⟨v, List.mem_filter.2 ⟨hv, changes_of_drops hdrops⟩, ?_⟩
        rw [Visit.removedAt, hoffset, hasync, hread, List.append_nil, byteLength_append]
      · have hrest : v.place.rest = asyncLead ++ (asyncLead ++ rest) := by
          have htext := hreach.text_eq
          rw [hread, List.append_assoc] at htext
          exact (List.append_cancel_left htext).symm
        have hdropped := (Cursor.holdsWord_iff.1 hdrops.word).1
        rw [hasync, hrest, List.prefix_append_right_inj] at hdropped
        cases head?_of_begins hdropped

theorem framesAt_append_async (hword : functionWord <+: rest) :
    framesAt (lead ++ asyncLead) rest = framesAt lead (asyncLead ++ rest) := by
  obtain ⟨after, rfl⟩ := hword
  rw [framesAt, Frames.through_append, through_async]
  rfl

theorem holdsWord_after_kept (hkept : kept = [] ∨ kept = asyncLead) {before : Option Char}
    (hword : (Cursor.mk before (kept ++ rest)).holdsWord (kept ++ functionWord) = true) :
    (Cursor.mk (kept.getLast?.or before) rest).holdsWord functionWord = true := by
  rcases hkept with rfl | rfl
  · exact hword
  · obtain ⟨hbegins, -, hafter⟩ := Cursor.holdsWord_iff.1 hword
    have hspace : isNameChar ' ' = false := by decide +kernel
    refine Cursor.holdsWord_iff.2 ⟨(List.prefix_append_right_inj asyncLead).1 hbegins, ?_, ?_⟩
    · change (!(some ' ').any isNameChar) = true
      rw [Option.any_some, hspace]
      rfl
    · simpa [Cursor.freeAfter, List.drop_append] using hafter

/-- What the pass does to a text: the words `function` that it drops, and that it keeps the rest. -/
structure DropsMembers (text : List Char) : Prop where
  /-- All that no change removes is left, in order. -/
  left : bareMethods text = survivors (droppedBy (methodPass.run text).changes) 0 text
  ascending : (methodPass.run text).changes.Pairwise fun v w => v.removedAt + byteLength v.edit.removed ≤ w.removedAt
  /-- A change removes a whole word `function`, with the space after it if there is one. -/
  word : ∀ v ∈ (methodPass.run text).changes, ∃ lead rest, text = lead ++ (v.edit.removed ++ rest) ∧
    v.removedAt = byteLength lead ∧
    (Cursor.mk lead.getLast? (v.edit.removed ++ rest)).holdsWord functionWord = true ∧
    (v.edit.removed = functionWord ++ [' '] ∨ v.edit.removed = functionWord ∧ rest.head? ≠ some ' ')
  /-- A whole word `function` is removed exactly where the innermost brace is one of a class body and a member begins, for
  what is left of the text before the word or before the `async` that stands there. -/
  members : ∀ lead rest, text = lead ++ rest → (Cursor.mk lead.getLast? rest).holdsWord functionWord = true →
    let gone := droppedBy (methodPass.run text).changes
    (∃ v ∈ (methodPass.run text).changes, v.removedAt = byteLength lead) ↔
      (framesAt lead rest).braces.head? = some .classBody ∧
        (BeginsMember (lastSolidAfter none (survivors gone 0 lead)) ∨
          ∃ head, lead = head ++ asyncLead ∧ (Cursor.mk head.getLast? (asyncLead ++ rest)).freeBefore = true ∧
            BeginsMember (lastSolidAfter none (survivors gone 0 head)))

/-- The pass drops the word of every member of a class body, and nothing else. -/
theorem bareMethods_drops_members (text : List Char) : DropsMembers text := by
  have hgone : droppedBy (methodPass.run text).changes = droppedBy (methodPass.run text).visits := droppedBy_changes _
  constructor
  case left => rw [hgone, bareMethods_eq_survivors]
  case ascending =>
    obtain ⟨_, _, hend⟩ := methodPass.run_reaches text
    refine (hend.ascending.filter _).imp fun {v w} h => ?_
    simp only [Edit.consumed, byteLength_append] at h
    simp only [Visit.removedAt]
    omega
  case word =>
    intro v hv
    obtain ⟨earlier, after, hreach, hdrops, hrest, hremovedAt⟩ := change_cases hv
    have hword : (Cursor.mk v.place.before (v.edit.kept ++ (v.edit.removed ++ after))).holdsWord
        (v.edit.kept ++ functionWord) = true := by
      rw [← hrest]
      exact hdrops.word
    refine ⟨readBy earlier ++ v.edit.kept, after, ?_, hremovedAt, ?_, ?_⟩
    · rw [List.append_assoc, ← hrest, ← hreach.text_eq]
    · rw [List.getLast?_append, ← hreach.before_eq]
      exact holdsWord_after_kept hdrops.kept hword
    · rcases hdrops.removed with hspaced | ⟨hremoved, hhead⟩
      · exact Or.inl hspaced
      · rw [hrest, hremoved, ← List.append_assoc, List.drop_left] at hhead
        exact Or.inr ⟨hremoved, hhead⟩
  case members =>
    rintro lead rest rfl hword
    have hbegins := (Cursor.holdsWord_iff.1 hword).1
    have hfree := (Cursor.holdsWord_iff.1 hword).2.1
    rw [exists_change_iff hword, hgone]
    constructor
    · rintro ⟨head, kept, rfl | rfl, rfl, hfree, hbraces, hlast⟩
      · exact ⟨by simpa using hbraces, Or.inl (by simpa using hlast)⟩
      · exact ⟨framesAt_append_async hbegins ▸ hbraces, Or.inr ⟨head, rfl, hfree, hlast⟩⟩
    · rintro ⟨hbraces, hlast | ⟨head, rfl, hfree, hlast⟩⟩
      · exact ⟨lead, [], Or.inl rfl, (List.append_nil lead).symm, hfree, hbraces, hlast⟩
      · exact ⟨head, asyncLead, Or.inr rfl, rfl, hfree, framesAt_append_async hbegins ▸ hbraces, hlast⟩

/-- What was dropped does not stand between a brace and the next word, and an `async` is kept. -/
example : bareMethods "class A \x7b function function f;\u2003async function g; async  function \x7d".toList =
    "class A \x7b f;\u2003async g; async  function \x7d".toList := by
  rw [bareMethods, Pass.run_eq_runWithin]
  decide +kernel

end Methods

end HangulScript
