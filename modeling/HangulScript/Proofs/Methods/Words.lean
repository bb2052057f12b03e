import HangulScript.Proofs.Methods.Members

/-!
# Words in what the method pass writes

A word that stands in what is written stands in the text, unless the pass dropped something in the middle of it. Inside of
most words no member can begin; after a point one can, so for words with a point the texts where a `function` comes after
one are left out.
-/

namespace HangulScript

open Text

namespace Methods

variable {text out a b word after piece : List Char} {done : List (Visit State)} {state final : State} {place : Cursor}

/-- No word `function` of the text comes next after a point. -/
def Unpointed (text : List Char) : Prop :=
  ∀ lead rest, text = lead ++ rest → (Cursor.mk lead.getLast? rest).holdsWord functionWord = true →
    lastSolidAfter none lead ≠ some '.'

theorem unpointed_iff : Unpointed text ↔ ∀ n < text.length + 1,
    (Cursor.mk (text.take n).getLast? (text.drop n)).holdsWord functionWord = true →
      lastSolidAfter none (text.take n) ≠ some '.' := by
  constructor
  · exact fun h n _ => h _ _ (List.take_append_drop n text).symm
  · rintro h lead rest rfl
    have hlength : lead.length < (lead ++ rest).length + 1 := by
      rw [List.length_append]
      omega
    simpa using h lead.length hlength

instance (text : List Char) : Decidable (Unpointed text) :=
  decidable_of_iff' _ unpointed_iff

/-- Inside the word and after it no member begins, but that one may begin after a point if the word goes on with something
else than an `a`. -/
structure Sealed (word : List Char) : Prop where
  head : word.head?.any (!isBlank ·) = true
  cut : ∀ a b, word = a ++ b → a ≠ [] → canBeginMember (lastSolidAfter none a) = false ∨
    lastSolidAfter none a = some '.' ∧ b.head?.any (· != 'a') = true

theorem sealed_iff : Sealed word ↔ word.head?.any (!isBlank ·) = true ∧ ∀ n < word.length,
    canBeginMember (lastSolidAfter none (word.take (n + 1))) = false ∨
      lastSolidAfter none (word.take (n + 1)) = some '.' ∧ (word.drop (n + 1)).head?.any (· != 'a') = true := by
  constructor
  · rintro ⟨hhead, hcut⟩
    refine ⟨hhead, fun n hn => hcut _ _ (List.take_append_drop (n + 1) word).symm ?_⟩
    exact take_ne_nil (Nat.succ_ne_zero n) (List.ne_nil_of_length_pos (Nat.lt_of_le_of_lt (Nat.zero_le n) hn))
  · rintro ⟨hhead, hcut⟩
    refine ⟨hhead, fun a b hword ha => ?_⟩
    obtain ⟨c, a, rfl⟩ := List.exists_cons_of_ne_nil ha
    have hlength : a.length < word.length := by
      rw [hword, List.length_append, List.length_cons]
      omega
    simpa [hword] using hcut a.length hlength

instance (word : List Char) : Decidable (Sealed word) :=
  decidable_of_iff' _ sealed_iff

/-! ## What the dropped words leave -/

theorem Drops.written {edit : Edit} (h : Drops state place edit) : edit.written = edit.kept := by
  rw [Edit.written, h.inserted, List.append_nil]

theorem Drops.free {edit : Edit} (h : Drops state place edit) {rest : List Char}
    (hread : place.rest = edit.consumed ++ rest) :
    edit.consumed.getLast? = some ' ' ∨ rest.head?.any isNameChar = false := by
  rcases h.removed with hremoved | ⟨hremoved, -⟩
  · refine Or.inl ?_
    rw [Edit.consumed, hremoved, ← List.append_assoc, List.getLast?_concat]
  · have hafter := (Cursor.holdsWord_iff.1 h.word).2.2
    rw [Edit.consumed, hremoved] at hread
    rw [Cursor.advance_append hread] at hafter
    exact Or.inr (by simpa [Cursor.freeAfter] using hafter)

/-- Where an identifier character comes next, one comes before the place in the text and in what is written, or in
neither. -/
theorem reaches_free (h : methodPass.Reaches text done state place) (hname : place.rest.head?.any isNameChar = true) :
    (writtenBy done).getLast?.any isNameChar = place.before.any isNameChar := by
  induction h with
  | start => rfl
  | @step done state place h hrest ih =>
      obtain ⟨rest, hread⟩ := edit_consumed_prefix state place
      simp only [methodPass_step, step_fst, Cursor.advance_append hread.symm] at hname ⊢
      rw [writtenBy_append, writtenBy_cons, writtenBy_nil, List.append_nil, List.getLast?_append]
      rcases edit_cases state hrest with ⟨piece, hne, hcopy⟩ | hdrops
      · rw [hcopy, Edit.written_copy, Edit.consumed_copy, getLast?_or_of_ne_nil hne, getLast?_or_of_ne_nil hne]
      · have hspace : isNameChar ' ' = false := by decide +kernel
        obtain ⟨hbegins, hfree, -⟩ := Cursor.holdsWord_iff.1 hdrops.word
        rcases hdrops.free hread.symm with hlast | hnone
        · rw [hlast, Option.some_or, Option.any_some, hspace, hdrops.written]
          rcases hdrops.kept with hkept | hkept
          · -- the word itself begins with an identifier character
            have hletter : functionWord.head?.any isNameChar = true := by decide +kernel
            obtain ⟨after, hafter⟩ := hbegins
            have hfirst : place.rest.head?.any isNameChar = true := by
              rw [← hafter, hkept, List.nil_append, List.head?_append_of_ne_nil _ (by decide), hletter]
            rw [hkept, List.getLast?_nil, Option.none_or, ih hfirst]
            simpa [Cursor.freeBefore] using hfree
          · have hlead : asyncLead.getLast? = some ' ' := by decide
            rw [hkept, hlead, Option.some_or, Option.any_some, hspace]
        · rw [hnone] at hname
          cases hname

/-! ## Words that are written -/

theorem mem_of_lastSolidAfter {c : Char} (h : lastSolidAfter none a = some c) : c ∈ a := by
  rw [lastSolidAfter, Option.or_none] at h
  exact (List.mem_filter.1 (List.mem_of_getLast? h)).1

theorem Sealed.not_drops (hword : Sealed word) (hpoints : '.' ∈ word → Unpointed text) (hcut : word = a ++ b) (ha : a ≠ [])
    (hreach : methodPass.Reaches text done state place) (hwritten : state.lastSolid = lastSolidAfter none a)
    (hread : lastSolidAfter none (readBy done) = lastSolidAfter none a)
    (hout : (edit state place).written ++ out = b ++ after) : ¬ Drops state place (edit state place) := by
  intro hdrops
  have hmember := (Bool.and_eq_true_iff.1 hdrops.atMember).2
  rw [hwritten] at hmember
  rcases hword.cut a b hcut ha with hnone | ⟨hpoint, hother⟩
  · rw [hnone] at hmember
    cases hmember
  · rcases hdrops.kept with hkept | hkept
    · have hmem : '.' ∈ word := by
        rw [hcut]
        exact List.mem_append_left b (mem_of_lastSolidAfter hpoint)
      refine hpoints hmem (readBy done) place.rest hreach.text_eq ?_ (hread.trans hpoint)
      have hholds := hdrops.word
      rw [hkept, List.nil_append] at hholds
      rw [← hreach.before_eq]
      exact hholds
    · obtain ⟨c, hc, hother⟩ := (Option.any_eq_true _ _).1 hother
      obtain ⟨b, rfl⟩ := List.head?_eq_some_iff.1 hc
      rw [hdrops.written, hkept] at hout
      rw [← (List.cons.inj hout).1] at hother
      cases hother

/-- The rest of a sealed word is written where it stands in the text, and an identifier goes on after it in both or in
neither. -/
theorem Sealed.leads_rest (hword : Sealed word) (hpoints : '.' ∈ word → Unpointed text) (hcut : word = a ++ b)
    (ha : a ≠ []) (hreach : methodPass.Reaches text done state place)
    (hwritten : state.lastSolid = lastSolidAfter none a)
    (hread : lastSolidAfter none (readBy done) = lastSolidAfter none a)
    (h : methodPass.Leads state place (b ++ after) final) : GoesOn b after place.rest := by
  generalize hout : b ++ after = out at h
  induction h generalizing a b done with
  | done hrest =>
      obtain ⟨rfl, rfl⟩ := List.append_eq_nil_iff.1 hout
      exact ⟨[], hrest, rfl⟩
  | @step state final place out hrest h ih =>
      have hkeeps := hword.not_drops hpoints hcut ha hreach hwritten hread hout.symm
      obtain ⟨piece, hne, hcopy⟩ := (edit_cases state hrest).resolve_right hkeeps
      obtain ⟨rest, hplace⟩ := edit_consumed_prefix state place
      have hnext := hreach.step hrest
      simp only [methodPass_step, step_fst, hcopy, Edit.consumed_copy, Edit.written_copy] at hout hplace hnext ih
      rw [Cursor.advance_append hplace.symm] at hnext ih
      have hsolid : (step state place).2.lastSolid = lastSolidAfter none (a ++ piece) := by
        rw [lastSolidAfter_append, ← hwritten, step, hcopy, Edit.written_copy]
      have hlast : lastSolidAfter none (readBy (done ++ [⟨byteLength (readBy done), place, state, Edit.copy piece⟩])) =
          lastSolidAfter none (a ++ piece) := by
        simp [lastSolidAfter_append, hread]
      have hne' : a ++ piece ≠ [] := List.append_ne_nil_of_left_ne_nil ha piece
      rw [← hplace]
      refine goesOn_of_piece hout fun more hpiece hmore => ih ?_ hne' hnext hsolid hlast hmore
      rw [hcut, hpiece, List.append_assoc]

theorem lastSolidAfter_cons {c : Char} (hsolid : isBlank c = false) (before : Option Char) (text : List Char) :
    lastSolidAfter before (c :: text) = lastSolidAfter none (c :: text) := by
  simp [lastSolidAfter, hsolid, List.getLast?_cons]

/-- A sealed word that is written where the pass copies stands in the text, between the same neighbours. -/
theorem Sealed.leads (hword : Sealed word) (hname : word.head?.any isNameChar = true)
    (hpoints : '.' ∈ word → Unpointed text) (hreach : methodPass.Reaches text done state place)
    (hcopy : edit state place = .copy piece) (h : methodPass.Leads state place out final) (hbegins : word <+: out) :
    word <+: place.rest ∧ place.freeBefore = (Cursor.mk (writtenBy done).getLast? out).freeBefore ∧
      (place.advance word.length).freeAfter =
        ((Cursor.mk (writtenBy done).getLast? out).advance word.length).freeAfter := by
  obtain ⟨after, rfl⟩ := hbegins
  obtain ⟨c, hc, hblank⟩ := (Option.any_eq_true _ _).1 hword.head
  have hsolid : isBlank c = false := by simpa using hblank
  obtain ⟨word, rfl⟩ := List.head?_eq_some_iff.1 hc
  suffices hrest : GoesOn (c :: word) after place.rest by
    obtain ⟨rest, hrest, hafter⟩ := hrest
    have hfirst : place.rest.head?.any isNameChar = true := by
      rw [hrest, List.cons_append]
      exact hname
    refine ⟨⟨rest, hrest.symm⟩, ?_, ?_⟩
    · rw [Cursor.freeBefore, Cursor.freeBefore, reaches_free hreach hfirst]
    · rw [Cursor.advance_append hrest, Cursor.advance_append rfl, Cursor.freeAfter, Cursor.freeAfter, hafter]
  generalize hout : c :: word ++ after = out at h
  cases h with
  | done => cases hout
  | step hrest h =>
      obtain ⟨rest, hplace⟩ := edit_consumed_prefix state place
      have hne : piece ≠ [] := by simpa [hcopy] using edit_consumed_ne_nil state hrest
      have hnext := hreach.step hrest
      simp only [methodPass_step, step_fst, hcopy, Edit.consumed_copy, Edit.written_copy] at hout hplace hnext h
      rw [Cursor.advance_append hplace.symm] at hnext h
      rw [← hplace]
      refine goesOn_of_piece hout fun more hcut hmore => ?_
      obtain ⟨d, piece, rfl⟩ := List.exists_cons_of_ne_nil hne
      obtain rfl : c = d := (List.cons.inj hcut).1
      have hwritten : (step state place).2.lastSolid = lastSolidAfter none (c :: piece) := by
        rw [step, hcopy, Edit.written_copy, lastSolidAfter_cons hsolid]
      have hread : lastSolidAfter none (readBy done ++ c :: piece) = lastSolidAfter none (c :: piece) := by
        rw [lastSolidAfter_append, lastSolidAfter_cons hsolid]
      rw [← hmore] at h
      exact hword.leads_rest hpoints hcut hne hnext hwritten (by simpa using hread) h

theorem Sealed.holdsWord_eq (hword : Sealed word) (hname : word.head?.any isNameChar = true)
    (hpoints : '.' ∈ word → Unpointed text) (hreach : methodPass.Reaches text done state place)
    (hcopy : edit state place = .copy piece) (h : methodPass.Leads state place out final) (hbegins : word <+: out) :
    (Cursor.mk (writtenBy done).getLast? out).holdsWord word = place.holdsWord word := by
  obtain ⟨hplace, hbefore, hafter⟩ := hword.leads hname hpoints hreach hcopy h hbegins
  rw [Bool.eq_iff_iff, Cursor.holdsWord_iff, Cursor.holdsWord_iff, hbefore, hafter]
  exact and_congr_left fun _ => iff_of_true hbegins hplace

/-! ## The words that the pass looks for -/

def passWords : List (List Char) :=
  [classWord, asyncLead ++ functionWord, functionWord]

theorem passWords_sealed : ∀ word ∈ passWords, Sealed word ∧ word.head?.any isNameChar = true ∧ '.' ∉ word := by
  decide +kernel

theorem begins_of_written (hmem : word ∈ passWords) (hreach : methodPass.Reaches text done state place)
    (hcopy : edit state place = .copy piece) (h : methodPass.Leads state place out final) (hbegins : word <+: out) :
    word <+: place.rest := by
  obtain ⟨hword, hname, hpoint⟩ := passWords_sealed word hmem
  exact (hword.leads hname (fun h => absurd h hpoint) hreach hcopy h hbegins).1

theorem holdsWord_written (hmem : word ∈ passWords) (hreach : methodPass.Reaches text done state place)
    (hcopy : edit state place = .copy piece) (h : methodPass.Leads state place out final) (hbegins : word <+: out) :
    (Cursor.mk (writtenBy done).getLast? out).holdsWord word = place.holdsWord word := by
  obtain ⟨hword, hname, hpoint⟩ := passWords_sealed word hmem
  exact hword.holdsWord_eq hname (fun h => absurd h hpoint) hreach hcopy h hbegins

/-- A word that does not stand at a copied place does not come to stand there. -/
theorem not_holdsWord_written (hmem : word ∈ passWords) (hreach : methodPass.Reaches text done state place)
    (hcopy : edit state place = .copy piece) (h : methodPass.Leads state place out final)
    (hnone : place.holdsWord word = false) : (Cursor.mk (writtenBy done).getLast? out).holdsWord word = false := by
  refine Bool.eq_false_iff.2 fun hheld => ?_
  rw [holdsWord_written hmem hreach hcopy h (Cursor.holdsWord_iff.1 hheld).1, hnone] at hheld
  cases hheld

end Methods

end HangulScript
