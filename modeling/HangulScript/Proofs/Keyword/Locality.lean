import HangulScript.Keyword.Rule

/-!
# How far a rule looks

Whether a word stands at a place is settled before the next character that belongs to no identifier and to no word.
-/

namespace HangulScript

open Text

namespace Text

variable {word text more : List Char} {m : Char} {before before' : Option Char}

theorem prefix_append_stop (hm : m ∉ word) : word <+: text ++ m :: more ↔ word <+: text := by
  constructor
  · rintro ⟨rest, hrest⟩
    rcases List.append_eq_append_iff.1 hrest with ⟨a, rfl, -⟩ | ⟨b, rfl, hb⟩
    · exact List.prefix_append ..
    · cases b with
      | nil => simp
      | cons d b =>
          obtain ⟨rfl, -⟩ := List.cons.inj hb
          exact absurd (by simp) hm
  · exact fun h => h.trans (List.prefix_append ..)

theorem Cursor.freeAfter_append_stop (hname : isNameChar m = false) (hword : word <+: text) :
    ((Cursor.mk before (text ++ m :: more)).advance word.length).freeAfter =
      ((Cursor.mk before' text).advance word.length).freeAfter := by
  obtain ⟨rest, rfl⟩ := hword
  cases rest with
  | nil => simp [Cursor.freeAfter, hname]
  | cons d rest => simp [Cursor.freeAfter]

theorem Cursor.holdsWord_append_stop (hname : isNameChar m = false) (hm : m ∉ word) :
    (Cursor.mk before (text ++ m :: more)).holdsWord word = (Cursor.mk before text).holdsWord word := by
  rw [Bool.eq_iff_iff, holdsWord_iff, holdsWord_iff, prefix_append_stop hm]
  refine and_congr_right fun hword => and_congr_right fun _ => ?_
  rw [freeAfter_append_stop hname hword]

theorem Cursor.holdsWord_before (hfree : before.any isNameChar = before'.any isNameChar) :
    (Cursor.mk before text).holdsWord word = (Cursor.mk before' text).holdsWord word := by
  simp [holdsWord, freeBefore, freeAfter, hfree]

end Text

namespace Rule

variable {rule : Rule} {table : List Rule} {text more : List Char} {m : Char} {before before' : Option Char}

theorem applies_before (hfree : before.any isNameChar = before'.any isNameChar) :
    rule.applies ⟨before, text⟩ = rule.applies ⟨before', text⟩ := by
  simp [applies, Cursor.freeBefore, Cursor.freeAfter, hfree]

/-- Of the text before the place only this counts: whether an identifier reaches it. -/
theorem applies_append_stop (hname : isNameChar m = false) (hm : m ∉ rule.spelling)
    (hfree : before.any isNameChar = before'.any isNameChar) :
    rule.applies ⟨before, text ++ m :: more⟩ = rule.applies ⟨before', text⟩ := by
  rw [Bool.eq_iff_iff, applies_iff, applies_iff, prefix_append_stop hm]
  refine and_congr_right fun hspelling => imp_congr_right fun _ => ?_
  rw [Cursor.freeAfter_append_stop hname hspelling, Cursor.freeBefore, Cursor.freeBefore, hfree]

theorem firstMatch?_append_stop (hname : isNameChar m = false) (hm : ∀ rule ∈ table, m ∉ rule.spelling)
    (hfree : before.any isNameChar = before'.any isNameChar) :
    firstMatch? table ⟨before, text ++ m :: more⟩ = firstMatch? table ⟨before', text⟩ := by
  unfold firstMatch?
  induction table with
  | nil => rfl
  | cons rule table ih =>
      have htail := ih fun r hr => hm r (List.mem_cons_of_mem rule hr)
      rw [List.find?_cons, List.find?_cons, htail, applies_append_stop hname (hm rule List.mem_cons_self) hfree]

theorem firstMatch?_eq_none_of_head (hm : ∀ rule ∈ table, rule.spelling.head? ≠ some m) :
    firstMatch? table ⟨before, m :: text⟩ = none := by
  refine List.find?_eq_none.2 fun rule hrule happlies => hm rule hrule ?_
  obtain ⟨c, spelling, hc⟩ := List.exists_cons_of_ne_nil rule.spelling_ne_nil
  have hbegins := spelling_prefix happlies
  rw [hc] at hbegins
  rw [hc, List.head?_cons, (List.cons_prefix_cons.1 hbegins).1]

end Rule

end HangulScript
