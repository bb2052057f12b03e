import Mathlib.Data.List.Infix
import Mathlib.Data.List.Sort
import HangulScript.Text.Cursor

/-!
# Brackets in a text

Which braces of a text are open at its end: those after which nothing closes more than was opened there. A text with
balanced brackets leaves everything open as it was.
-/

namespace HangulScript.Text

/-- No beginning of the text closes more brackets than it opens. -/
def NeverCloses (opening closing : Char) (text : List Char) : Prop :=
  ∀ part, part <+: text → part.count closing ≤ part.count opening

instance (opening closing : Char) (text : List Char) : Decidable (NeverCloses opening closing text) :=
  decidable_of_iff (∀ part ∈ text.inits, part.count closing ≤ part.count opening)
    (forall_congr' fun part => imp_congr_left (List.mem_inits part text))

/-- The text closes all the brackets that it opens, and no others. -/
structure Balanced (opening closing : Char) (text : List Char) : Prop where
  never : NeverCloses opening closing text
  even : text.count closing = text.count opening

instance (opening closing : Char) (text : List Char) : Decidable (Balanced opening closing text) :=
  decidable_of_iff (NeverCloses opening closing text ∧ text.count closing = text.count opening)
    ⟨fun h => ⟨h.1, h.2⟩, fun h => ⟨h.never, h.even⟩⟩

/-- The numbers of characters before the braces that are open at the end of the text, the innermost first. A closing brace
without an opening one has no effect. -/
def openBraces (text : List Char) : List Nat :=
  ((List.range text.length).filter fun n => text[n]? = some '{' ∧ NeverCloses '{' '}' (text.drop (n + 1))).reverse

variable {opening closing c : Char} {text lead rest a b : List Char} {n m : Nat}

/-! ## Texts that close nothing -/

theorem NeverCloses.count_le (h : NeverCloses opening closing text) : text.count closing ≤ text.count opening :=
  h text (List.prefix_refl text)

theorem NeverCloses.of_append (h : NeverCloses opening closing (a ++ b)) : NeverCloses opening closing a :=
  fun part hpart => h part (hpart.trans (List.prefix_append a b))

theorem neverCloses_append_iff (hb : NeverCloses opening closing b) :
    NeverCloses opening closing (a ++ b) ↔ NeverCloses opening closing a := by
  refine ⟨NeverCloses.of_append, fun ha part hpart => ?_⟩
  rcases List.prefix_or_prefix_of_prefix hpart (List.prefix_append a b) with hpart | ⟨more, rfl⟩
  · exact ha part hpart
  · have hmore := hb more ((List.prefix_append_right_inj a).1 hpart)
    have hle := ha.count_le
    simp only [List.count_append]
    omega

theorem neverCloses_concat_iff :
    NeverCloses opening closing (text ++ [c]) ↔
      NeverCloses opening closing text ∧ (text ++ [c]).count closing ≤ (text ++ [c]).count opening := by
  refine ⟨fun h => ⟨h.of_append, h.count_le⟩, fun ⟨h, hle⟩ part hpart => ?_⟩
  rcases List.prefix_concat_iff.1 hpart with rfl | hpart
  · exact hle
  · exact h part hpart

/-- If no bracket of a text is open, no end of the text opens more than it closes. -/
theorem count_le_of_none_open (h : ∀ a b, text = a ++ opening :: b → ¬ NeverCloses opening closing b) :
    ∀ part, part <:+ text → part.count opening ≤ part.count closing := by
  induction text with
  | nil =>
      intro part hpart
      rw [List.suffix_nil.1 hpart]
      exact Nat.le_refl _
  | cons c text ih =>
      have hrest := ih fun a b htext => h (c :: a) b (congrArg (c :: ·) htext)
      intro part hpart
      rcases List.suffix_cons_iff.1 hpart with rfl | hpart
      · have hall := hrest text (List.suffix_refl text)
        by_cases hopening : c = opening
        · subst hopening
          -- the bracket is closed, and what comes after that opens no more than it closes
          obtain ⟨closed, ⟨after, rfl⟩, hlt⟩ : ∃ closed, closed <+: text ∧ closed.count c < closed.count closing := by
            simpa [NeverCloses] using h [] text rfl
          have hafter := hrest after (List.suffix_append closed after)
          have hle : (closed ++ after).count closing ≤ (c :: (closed ++ after)).count closing := List.count_le_count_cons
          rw [List.count_cons_self]
          simp only [List.count_append] at hle ⊢
          omega
        · rw [List.count_cons_of_ne hopening]
          exact Nat.le_trans hall List.count_le_count_cons
      · exact hrest part hpart

/-- A text that opens more than it closes leaves one of its brackets open. -/
theorem exists_open_of_count_lt (h : text.count closing < text.count opening) :
    ∃ a b, text = a ++ opening :: b ∧ NeverCloses opening closing b := by
  by_contra hnone
  have hall : text.count opening ≤ text.count closing :=
    count_le_of_none_open (fun a b htext hb => hnone ⟨a, b, htext, hb⟩) text (List.suffix_refl text)
  omega

/-! ## Open braces -/

theorem mem_openBraces_iff :
    n ∈ openBraces text ↔ ∃ a b, text = a ++ '{' :: b ∧ a.length = n ∧ NeverCloses '{' '}' b := by
  simp only [openBraces, List.mem_reverse, List.mem_filter, List.mem_range, decide_eq_true_eq]
  constructor
  · rintro ⟨hn, hbrace, hnever⟩
    have hdrop : text.drop n = '{' :: text.drop (n + 1) := by
      rw [List.drop_eq_getElem_cons hn, Option.some.inj ((List.getElem?_eq_getElem hn).symm.trans hbrace)]
    exact ⟨text.take n, _, by rw [← hdrop, List.take_append_drop], List.length_take_of_le (Nat.le_of_lt hn), hnever⟩
  · rintro ⟨a, b, rfl, rfl, hb⟩
    simp [hb]

theorem openBraces_descending (text : List Char) : (openBraces text).Pairwise (· > ·) := by
  rw [openBraces, List.pairwise_reverse]
  exact List.pairwise_lt_range.filter _

theorem openBraces_eq {places : List Nat} (hplaces : places.Pairwise (· > ·))
    (h : ∀ n, n ∈ openBraces text ↔ n ∈ places) : openBraces text = places :=
  (openBraces_descending text).eq_of_mem_iff hplaces h

theorem mem_openBraces_lt (h : n ∈ openBraces text) : n < text.length := by
  obtain ⟨a, b, rfl, rfl, -⟩ := mem_openBraces_iff.1 h
  simp

/-- The braces that are open after two texts are braces of the first that the second leaves open, or of the second. -/
theorem mem_openBraces_append_iff :
    n ∈ openBraces (a ++ b) ↔
      (∃ lead rest, a = lead ++ '{' :: rest ∧ lead.length = n ∧ NeverCloses '{' '}' (rest ++ b)) ∨
        ∃ m ∈ openBraces b, a.length + m = n := by
  rw [mem_openBraces_iff]
  constructor
  · rintro ⟨lead, rest, htext, rfl, hrest⟩
    rcases List.append_eq_append_iff.1 htext with ⟨more, rfl, rfl⟩ | ⟨more, rfl, hmore⟩
    · refine Or.inr ⟨more.length, mem_openBraces_iff.2 ⟨more, rest, rfl, rfl, hrest⟩, ?_⟩
      rw [List.length_append]
    · rcases List.cons_eq_append_iff.1 hmore with ⟨rfl, rfl⟩ | ⟨more, rfl, rfl⟩
      · refine Or.inr ⟨0, mem_openBraces_iff.2 ⟨[], rest, rfl, rfl, hrest⟩, ?_⟩
        simp
      · exact Or.inl ⟨lead, more, rfl, rfl, hrest⟩
  · rintro (⟨lead, rest, rfl, rfl, hrest⟩ | ⟨m, hm, rfl⟩)
    · exact ⟨lead, rest ++ b, by simp, rfl, hrest⟩
    · obtain ⟨lead, rest, rfl, rfl, hrest⟩ := mem_openBraces_iff.1 hm
      exact ⟨a ++ lead, rest, by simp, List.length_append, hrest⟩

theorem openBraces_of_count_le (hnever : NeverCloses '{' '}' text) (hle : text.count '{' ≤ text.count '}') :
    openBraces text = [] := by
  refine List.eq_nil_iff_forall_not_mem.2 fun n hn => ?_
  obtain ⟨a, b, rfl, -, hb⟩ := mem_openBraces_iff.1 hn
  have ha := hnever a (List.prefix_append _ _)
  have hb := hb.count_le
  have hother : ('{' :: b).count '}' = b.count '}' := List.count_cons_of_ne (by decide)
  simp only [List.count_append, List.count_cons_self, hother] at hle
  omega

theorem openBraces_append_of_balanced (h : Balanced '{' '}' b) : openBraces (a ++ b) = openBraces a := by
  refine openBraces_eq (openBraces_descending a) fun n => ?_
  rw [mem_openBraces_append_iff, openBraces_of_count_le h.never (Nat.le_of_eq h.even.symm), mem_openBraces_iff]
  simp only [neverCloses_append_iff h.never, List.not_mem_nil, false_and, exists_false, or_false]

theorem openBraces_concat_opening : openBraces (text ++ ['{']) = text.length :: openBraces text := by
  refine openBraces_eq (List.pairwise_cons.2 ⟨fun n => mem_openBraces_lt, openBraces_descending text⟩) fun n => ?_
  have hbrace : openBraces ['{'] = [0] := by decide
  have hnever : NeverCloses '{' '}' ['{'] := by decide
  rw [mem_openBraces_append_iff, hbrace, List.mem_cons, mem_openBraces_iff]
  simp only [neverCloses_append_iff hnever, List.mem_singleton, exists_eq_left, Nat.add_zero]
  exact or_comm.trans (or_congr_left eq_comm)

/-- A text without brackets is balanced. -/
theorem balanced_of_notMem (hopening : opening ∉ text) (hclosing : closing ∉ text) : Balanced opening closing text := by
  have hnone := List.count_eq_zero.2 hclosing
  refine ⟨fun part hpart => ?_, by rw [hnone, List.count_eq_zero.2 hopening]⟩
  rw [List.count_eq_zero.2 fun hmem => hclosing (hpart.subset hmem)]
  exact Nat.zero_le _

theorem openBraces_concat_other (hopening : c ≠ '{') (hclosing : c ≠ '}') :
    openBraces (text ++ [c]) = openBraces text :=
  openBraces_append_of_balanced (balanced_of_notMem (by simpa using hopening.symm) (by simpa using hclosing.symm))

theorem mem_tail_iff_of_descending {places : List Nat} (h : places.Pairwise (· > ·)) :
    n ∈ places.tail ↔ n ∈ places ∧ ∃ m ∈ places, n < m := by
  cases places with
  | nil => simp
  | cons m places =>
      obtain ⟨hm, -⟩ := List.pairwise_cons.1 h
      rw [List.tail_cons, List.mem_cons]
      constructor
      · exact fun hn => ⟨Or.inr hn, m, List.mem_cons_self, hm n hn⟩
      · rintro ⟨rfl | hn, k, hk, hlt⟩
        · rcases List.mem_cons.1 hk with rfl | hk
          · exact absurd hlt (Nat.lt_irrefl _)
          · exact absurd hlt (Nat.lt_asymm (hm k hk))
        · exact hn

/-- After an open brace there is another one that is open exactly when more was opened than closed. -/
theorem exists_later_iff (hrest : NeverCloses '{' '}' rest) :
    (∃ m ∈ openBraces (lead ++ '{' :: rest), lead.length < m) ↔ rest.count '}' < rest.count '{' := by
  constructor
  · rintro ⟨m, hm, hlt⟩
    obtain ⟨a, b, htext, rfl, hb⟩ := mem_openBraces_iff.1 hm
    obtain ⟨more, rfl⟩ : ∃ more, a = lead ++ '{' :: more := by
      rcases List.append_eq_append_iff.1 htext with ⟨more, rfl, hmore⟩ | ⟨more, rfl, -⟩
      · rcases List.cons_eq_append_iff.1 hmore with ⟨rfl, -⟩ | ⟨more, rfl, -⟩
        · simp at hlt
        · exact ⟨more, rfl⟩
      · rw [List.length_append] at hlt
        omega
    obtain rfl : rest = more ++ '{' :: b := by simpa using htext
    have hmore := hrest more (List.prefix_append _ _)
    have hb := hb.count_le
    have hother : ('{' :: b).count '}' = b.count '}' := List.count_cons_of_ne (by decide)
    simp only [List.count_append, List.count_cons_self, hother]
    omega
  · intro hlt
    obtain ⟨a, b, rfl, hb⟩ := exists_open_of_count_lt hlt
    refine ⟨(lead ++ '{' :: a).length, mem_openBraces_iff.2 ⟨_, b, by simp, rfl, hb⟩, ?_⟩
    rw [List.length_append, List.length_cons]
    omega

theorem openBraces_concat_closing : openBraces (text ++ ['}']) = (openBraces text).tail := by
  refine openBraces_eq ((openBraces_descending text).sublist (List.tail_sublist _)) fun n => ?_
  have hbrace : openBraces ['}'] = [] := by decide
  rw [mem_openBraces_append_iff, hbrace, mem_tail_iff_of_descending (openBraces_descending text), mem_openBraces_iff]
  have hcount : ∀ rest : List Char, (rest ++ ['}']).count '}' ≤ (rest ++ ['}']).count '{' ↔
      rest.count '}' < rest.count '{' := by
    intro rest
    have hclosing : ['}'].count '}' = 1 := by decide
    have hopening : ['}'].count '{' = 0 := by decide
    rw [List.count_append, List.count_append, hclosing, hopening]
    omega
  simp only [neverCloses_concat_iff, hcount, List.not_mem_nil, false_and, exists_false, or_false]
  constructor
  · rintro ⟨lead, rest, rfl, rfl, hrest, hlt⟩
    exact ⟨⟨lead, rest, rfl, rfl, hrest⟩, (exists_later_iff hrest).2 hlt⟩
  · rintro ⟨⟨lead, rest, rfl, rfl, hrest⟩, hlater⟩
    exact ⟨lead, rest, rfl, rfl, hrest, (exists_later_iff hrest).1 hlater⟩

end HangulScript.Text
