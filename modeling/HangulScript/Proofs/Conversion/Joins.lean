import HangulScript.Proofs.Diagnostic.Lines
import HangulScript.Proofs.Scan.Survivors

/-!
# Terminators that meet

A return that stands alone ends a line. When all the characters between it and a newline are dropped the two become one
terminator, and only then does a text lose a line end by what is dropped from it.
-/

namespace HangulScript

open Text

/-- A return of the first part stands alone, and before a newline in what is left of the two parts from the offset on. -/
def JoinsReturn (gone : Nat → Bool) (offset : Nat) (lead rest : List Char) : Prop :=
  ∃ x y, lead = x ++ '\r' :: y ∧ (y ++ rest).head? ≠ some '\n' ∧
    (survivors gone (offset + byteLength x + 1) (y ++ rest)).head? = some '\n'

variable {gone : Nat → Bool} {offset : Nat} {c : Char} {lead rest text : List Char}

theorem joinsReturn_cons : JoinsReturn gone offset (c :: lead) rest ↔
    (c = '\r' ∧ (lead ++ rest).head? ≠ some '\n' ∧ (survivors gone (offset + 1) (lead ++ rest)).head? = some '\n') ∨
      JoinsReturn gone (offset + c.utf8Size) lead rest := by
  constructor
  · rintro ⟨x, y, hcut, hapart, hmeets⟩
    rcases List.cons_eq_append_iff.1 hcut with ⟨rfl, hfirst⟩ | ⟨x, rfl, rfl⟩
    · obtain ⟨rfl, rfl⟩ := List.cons.inj hfirst
      exact Or.inl ⟨rfl, hapart, hmeets⟩
    · rw [byteLength_cons, ← Nat.add_assoc] at hmeets
      exact Or.inr ⟨x, y, rfl, hapart, hmeets⟩
  · rintro (⟨rfl, hapart, hmeets⟩ | ⟨x, y, rfl, hapart, hmeets⟩)
    · exact ⟨[], lead, rfl, hapart, hmeets⟩
    · refine ⟨c :: x, y, rfl, hapart, ?_⟩
      rwa [byteLength_cons, ← Nat.add_assoc]

/-- No character of the text that is gone ends a line. -/
def KeepsEnds (gone : Nat → Bool) (offset : Nat) (text : List Char) : Prop :=
  ∀ a c b, text = a ++ c :: b → gone (offset + byteLength a) = true → isLineEnd c = false

theorem KeepsEnds.kept (h : KeepsEnds gone offset (c :: text)) (hc : isLineEnd c = true) : gone offset = false := by
  refine Bool.eq_false_iff.2 fun hgone => ?_
  rw [h [] c text rfl hgone] at hc
  cases hc

theorem KeepsEnds.tail (h : KeepsEnds gone offset (c :: text)) : KeepsEnds gone (offset + c.utf8Size) text := by
  intro a d b htext hgone
  refine h (c :: a) d b (by rw [htext, List.cons_append]) ?_
  rwa [byteLength_cons, ← Nat.add_assoc]

theorem KeepsEnds.head (h : KeepsEnds gone offset text) (hhead : text.head? = some '\n') :
    (survivors gone offset text).head? = some '\n' := by
  obtain ⟨more, rfl⟩ := List.head?_eq_some_iff.1 hhead
  rw [survivors_cons_of_kept (h.kept rfl), List.head?_cons]

/-- As long as no line end is dropped, no more lines end in what is left of the first part than in that part, and as many
unless a return meets a newline. The lines of a first part are those of the whole without those of the rest. -/
theorem endedLines_survivors (hends : KeepsEnds gone offset (lead ++ rest)) :
    let before := endedLines (lead ++ rest) + endedLines (survivors gone (offset + byteLength lead) rest)
    let after := endedLines (survivors gone offset (lead ++ rest)) + endedLines rest
    after ≤ before ∧ (after = before ↔ ¬ JoinsReturn gone offset lead rest) := by
  dsimp only
  induction lead generalizing offset with
  | nil =>
      have hnone : ¬ JoinsReturn gone offset [] rest := by
        rintro ⟨x, y, hcut, -⟩
        exact List.append_ne_nil_of_right_ne_nil x (List.cons_ne_nil _ y) hcut.symm
      simp [hnone, Nat.add_comm]
  | cons c lead ih =>
      obtain ⟨hle, heq⟩ := ih hends.tail
      rw [List.cons_append] at hends ⊢
      rw [joinsReturn_cons, byteLength_cons, ← Nat.add_assoc]
      by_cases hnewline : c = '\n'
      · subst hnewline
        rw [survivors_cons_of_kept (hends.kept rfl), endedLines_newline, endedLines_newline]
        simp only [Char.reduceEq, false_and, false_or, ← heq]
        omega
      by_cases hreturn : c = '\r'
      · subst hreturn
        rw [survivors_cons_of_kept (hends.kept rfl), endedLines_return, endedLines_return]
        -- a newline right after the return is left there
        have hpair := hends.tail.head
        by_cases hhead : (lead ++ rest).head? = some '\n'
        · rw [if_pos hhead, if_pos (hpair hhead)]
          simp only [hhead, ne_eq, not_true_eq_false, false_and, and_false, false_or, ← heq]
          omega
        by_cases hmeets : (survivors gone (offset + '\r'.utf8Size) (lead ++ rest)).head? = some '\n'
        · rw [if_neg hhead, if_pos hmeets]
          have hjoins : (survivors gone (offset + 1) (lead ++ rest)).head? = some '\n' := hmeets
          simp only [hhead, hjoins, ne_eq, not_false_eq_true, true_and, true_or, not_true_eq_false, iff_false]
          omega
        · rw [if_neg hhead, if_neg hmeets]
          have hjoins : (survivors gone (offset + 1) (lead ++ rest)).head? ≠ some '\n' := hmeets
          simp only [hjoins, and_false, false_or, ← heq]
          omega
      · have hsame : endedLines (survivors gone offset (c :: (lead ++ rest))) =
            endedLines (survivors gone (offset + c.utf8Size) (lead ++ rest)) := by
          rw [survivors]
          split_ifs
          · rfl
          · exact endedLines_other hnewline hreturn _
        rw [hsame, endedLines_other hnewline hreturn]
        simp only [hreturn, false_and, false_or]
        exact ⟨hle, heq⟩

end HangulScript
