import HangulScript.Proofs.Methods.Members
import HangulScript.Proofs.Text.Brackets

/-!
# Class bodies as scopes

Which braces are class bodies is told by containment: a brace that is the first one after a word `class`, and every brace
inside of it. The method pass follows exactly this, whatever closing braces come without an opening one.
-/

namespace HangulScript

open Text

namespace Methods

variable {text lead rest word : List Char} {c : Char} {n : Nat} {outer : List Nat}

/-- A whole word `class` begins before the place, and no brace is opened after it. -/
def ClassAhead (lead rest : List Char) : Prop :=
  ∃ a b, lead = a ++ b ∧ b ≠ [] ∧ (Cursor.mk a.getLast? (b ++ rest)).holdsWord classWord = true ∧ '{' ∉ b

/-- The brace after `n` characters of the text is the first one after a whole word `class`. -/
def OpensClass (text : List Char) (n : Nat) : Prop :=
  ClassAhead (text.take n) (text.drop n)

theorem classAhead_iff_exists_lt : ClassAhead lead rest ↔ ∃ k < lead.length,
    (Cursor.mk (lead.take k).getLast? (lead.drop k ++ rest)).holdsWord classWord = true ∧ '{' ∉ lead.drop k := by
  constructor
  · rintro ⟨a, b, rfl, hb, hword, hbrace⟩
    have hlength := List.length_pos_iff.2 hb
    refine ⟨a.length, by rw [List.length_append]; omega, ?_⟩
    simpa using ⟨hword, hbrace⟩
  · rintro ⟨k, hk, hword, hbrace⟩
    refine ⟨lead.take k, lead.drop k, (List.take_append_drop k lead).symm, ?_, hword, hbrace⟩
    exact List.ne_nil_of_length_pos (by rw [List.length_drop]; omega)

instance (lead rest : List Char) : Decidable (ClassAhead lead rest) :=
  decidable_of_iff' _ classAhead_iff_exists_lt

instance (text : List Char) (n : Nat) : Decidable (OpensClass text n) :=
  inferInstanceAs (Decidable (ClassAhead (text.take n) (text.drop n)))

/-- What the open braces of a text enclose, given their places with the innermost first: more of a class body, if one of
the braces up to there opens a class. -/
def enclosures (text : List Char) : List Nat → List Brace
  | [] => []
  | n :: outer => (if ∃ m ∈ n :: outer, OpensClass text m then .classBody else .other) :: enclosures text outer

/-- A class body is open between the two parts of a text. -/
def InClassBody (lead rest : List Char) : Prop :=
  ∃ n ∈ openBraces lead, OpensClass (lead ++ rest) n

/-! ## What is around a brace -/

theorem length_enclosures (text : List Char) (opens : List Nat) : (enclosures text opens).length = opens.length := by
  induction opens with
  | nil => rfl
  | cons n outer ih => rw [enclosures, List.length_cons, List.length_cons, ih]

theorem tail_enclosures (text : List Char) (opens : List Nat) :
    (enclosures text opens).tail = enclosures text opens.tail := by
  cases opens <;> rfl

theorem head?_enclosures_iff {opens : List Nat} :
    (enclosures text opens).head? = some .classBody ↔ ∃ n ∈ opens, OpensClass text n := by
  cases opens with
  | nil => simp [enclosures]
  | cons n outer =>
      rw [enclosures, List.head?_cons, Option.some.injEq]
      split_ifs with h
      · exact iff_of_true rfl h
      · exact iff_of_false (fun heq => by cases heq) h

theorem enclosures_eq_replicate {opens : List Nat} (h : ¬ ∃ n ∈ opens, OpensClass text n) :
    enclosures text opens = List.replicate opens.length .other := by
  induction opens with
  | nil => rfl
  | cons n outer ih =>
      have houter : ¬ ∃ m ∈ outer, OpensClass text m := fun ⟨m, hm, hopens⟩ => h ⟨m, List.mem_cons_of_mem n hm, hopens⟩
      rw [enclosures, if_neg h, ih houter, List.length_cons, List.replicate_succ]

/-- The braces of class bodies are inside of all the others. -/
theorem enclosures_runs (text : List Char) (opens : List Nat) : ∃ inside outside,
    enclosures text opens = List.replicate inside .classBody ++ List.replicate outside .other := by
  induction opens with
  | nil => exact ⟨0, 0, rfl⟩
  | cons n outer ih =>
      by_cases hclass : ∃ m ∈ n :: outer, OpensClass text m
      · obtain ⟨inside, outside, houter⟩ := ih
        exact ⟨inside + 1, outside, by rw [enclosures, if_pos hclass, houter, List.replicate_succ, List.cons_append]⟩
      · exact ⟨0, (n :: outer).length, by rw [enclosures_eq_replicate hclass, List.replicate_zero, List.nil_append]⟩

/-- What the next brace encloses: a class body, if it opens one or stands in one. -/
theorem enclosures_cons (text : List Char) (n : Nat) (opens : List Nat) :
    enclosures text (n :: opens) =
      (if OpensClass text n then .classBody else (enclosures text opens).headD .other) :: enclosures text opens := by
  rw [enclosures]
  congr 1
  by_cases hn : OpensClass text n
  · rw [if_pos hn, if_pos ⟨n, List.mem_cons_self, hn⟩]
  · have hother : (∃ m ∈ n :: opens, OpensClass text m) ↔ ∃ m ∈ opens, OpensClass text m := by
      simp [hn]
    rw [if_neg hn, if_congr hother rfl rfl]
    cases opens <;> rfl

/-! ## One character more -/

theorem framesAt_concat (lead : List Char) (c : Char) (rest : List Char) :
    framesAt (lead ++ [c]) rest = (framesAt lead (c :: rest)).over ⟨lead.getLast?, c :: rest⟩ := by
  rw [framesAt, Frames.through_append, Option.or_none]
  rfl

theorem not_classAhead_nil : ¬ ClassAhead [] rest := by
  rintro ⟨a, b, hnil, hb, -⟩
  exact hb (List.append_eq_nil_iff.1 hnil.symm).2

theorem holdsWord_class_head {place : Cursor} (h : place.holdsWord classWord = true) : place.rest.head? = some 'c' :=
  head?_of_begins (Cursor.holdsWord_iff.1 h).1

theorem classAhead_concat_iff : ClassAhead (lead ++ [c]) rest ↔
    (Cursor.mk lead.getLast? (c :: rest)).holdsWord classWord = true ∨ c ≠ '{' ∧ ClassAhead lead (c :: rest) := by
  constructor
  · rintro ⟨a, b, hlead, hb, hword, hbrace⟩
    obtain ⟨b, d, rfl⟩ := List.eq_nil_or_concat b |>.resolve_left hb
    rw [List.concat_eq_append, ← List.append_assoc] at hlead
    obtain ⟨rfl, hd⟩ := List.append_inj' hlead rfl
    obtain rfl : c = d := (List.cons.inj hd).1
    by_cases hnil : b = []
    · subst hnil
      exact Or.inl (by simpa using hword)
    · simp only [List.concat_eq_append, List.mem_append, List.mem_singleton, not_or] at hbrace
      exact Or.inr ⟨Ne.symm hbrace.2, a, b, rfl, hnil, by simpa using hword, hbrace.1⟩
  · rintro (hword | ⟨hc, a, b, rfl, hb, hword, hbrace⟩)
    · refine ⟨lead, [c], rfl, List.cons_ne_nil c [], hword, fun hmem => ?_⟩
      obtain rfl := List.mem_singleton.1 hmem
      cases holdsWord_class_head hword
    · refine ⟨a, b ++ [c], by simp, by simp, by simpa using hword, ?_⟩
      simpa [hbrace] using Ne.symm hc

/-! ## The braces at a place -/

theorem framesAt_classAhead_iff : (framesAt lead rest).classAhead = true ↔ ClassAhead lead rest := by
  induction lead using List.reverseRecOn generalizing rest with
  | nil => exact iff_of_false (fun h => by cases h) not_classAhead_nil
  | append_singleton lead c ih =>
      rw [framesAt_concat, classAhead_concat_iff, ← ih, Frames.over]
      split_ifs with hclass hopening hclosing
      · simp [hclass]
      · obtain rfl : c = '{' := by simpa using hopening
        simp [hclass]
      · obtain rfl : c = '}' := by simpa using hclosing
        simp [hclass]
      · have hc : c ≠ '{' := by simpa using hopening
        simp [hclass, hc]

theorem opensClass_iff : OpensClass (lead ++ rest) lead.length ↔ (framesAt lead rest).classAhead = true := by
  rw [OpensClass, List.take_left, List.drop_left, framesAt_classAhead_iff]

/-- The braces that are open at a place enclose what is around them. -/
theorem framesAt_braces : (framesAt lead rest).braces = enclosures (lead ++ rest) (openBraces lead) := by
  induction lead using List.reverseRecOn generalizing rest with
  | nil => rfl
  | append_singleton lead c ih =>
      have ih : (framesAt lead (c :: rest)).braces = enclosures (lead ++ c :: rest) (openBraces lead) := ih
      rw [framesAt_concat, List.append_assoc, List.singleton_append, Frames.over]
      by_cases hclass : (Cursor.mk lead.getLast? (c :: rest)).holdsWord classWord = true
      · have hc : c = 'c' := by simpa using holdsWord_class_head hclass
        rw [if_pos hclass, openBraces_concat_other (by rw [hc]; decide) (by rw [hc]; decide), ← ih]
      by_cases hopening : c = '{'
      · subst hopening
        rw [if_neg hclass, openBraces_concat_opening, enclosures_cons, ← ih]
        simp only [opensClass_iff]
        rfl
      by_cases hclosing : c = '}'
      · subst hclosing
        rw [if_neg hclass, openBraces_concat_closing, ← tail_enclosures, ← ih]
        rfl
      · rw [if_neg hclass, if_neg (by simpa using hopening), if_neg (by simpa using hclosing),
          openBraces_concat_other hopening hclosing, ← ih]

/-- The innermost open brace is one of a class body where a class body is open. -/
theorem framesAt_head?_iff : (framesAt lead rest).braces.head? = some .classBody ↔ InClassBody lead rest := by
  rw [framesAt_braces, head?_enclosures_iff, InClassBody]

/-! ## A whole run -/

/-- What holds of the open braces wherever the pass comes, and of the words that it drops. -/
structure FollowsScopes (text : List Char) : Prop where
  /-- The pass keeps one entry for each open brace: a class body, if that brace or one around it is the first one after a
  `class`. -/
  braces : ∀ earlier later, (methodPass.run text).visits = earlier ++ later →
    ((methodPass.run text).stateAt later).braces = enclosures text (openBraces (readBy earlier))
  count : ∀ earlier later, (methodPass.run text).visits = earlier ++ later →
    ((methodPass.run text).stateAt later).braces.length = (openBraces (readBy earlier)).length
  runs : ∀ earlier later, (methodPass.run text).visits = earlier ++ later → ∃ inside outside,
    ((methodPass.run text).stateAt later).braces =
      List.replicate inside .classBody ++ List.replicate outside .other
  innermost : ∀ earlier later, (methodPass.run text).visits = earlier ++ later →
    (((methodPass.run text).stateAt later).braces.head? = some .classBody ↔
      ∃ n ∈ openBraces (readBy earlier), OpensClass text n)
  /-- A word that is dropped stands inside a class body. -/
  drops : ∀ v ∈ (methodPass.run text).changes, ∃ lead rest, text = lead ++ rest ∧ v.removedAt = byteLength lead ∧
    ∃ n ∈ openBraces lead, OpensClass text n

/-- The method pass takes for class bodies what lies inside the braces that come first after a word `class`. -/
theorem methods_follow_scopes (text : List Char) : FollowsScopes text := by
  have hbraces : ∀ earlier later, (methodPass.run text).visits = earlier ++ later →
      ((methodPass.run text).stateAt later).braces = enclosures text (openBraces (readBy earlier)) := by
    intro earlier later hvisits
    obtain ⟨_, _, hend⟩ := methodPass.run_reaches text
    obtain ⟨place, hreach, -⟩ := hend.of_append hvisits
    have hframes : (framesAt (readBy earlier) place.rest).braces = _ := congrArg Frames.braces (reaches_frames hreach)
    rw [framesAt_braces, ← hreach.text_eq] at hframes
    exact hframes.symm
  constructor
  case braces => exact hbraces
  case count =>
    intro earlier later hvisits
    rw [hbraces earlier later hvisits, length_enclosures]
  case runs =>
    intro earlier later hvisits
    rw [hbraces earlier later hvisits]
    exact enclosures_runs text _
  case innermost =>
    intro earlier later hvisits
    rw [hbraces earlier later hvisits]
    exact head?_enclosures_iff
  case drops =>
    intro v hv
    obtain ⟨earlier, after, hreach, hdrops, hrest, hremovedAt⟩ := change_cases hv
    have hinside : InClassBody (readBy earlier) v.place.rest :=
      framesAt_head?_iff.1 ((reaches_atMember hreach).1 hdrops.atMember).1
    rw [InClassBody, ← hreach.text_eq] at hinside
    have hkept : Balanced '{' '}' v.edit.kept := by
      rcases hdrops.kept with hkept | hkept <;> rw [hkept] <;> decide
    refine ⟨readBy earlier ++ v.edit.kept, v.edit.removed ++ after, ?_, hremovedAt, ?_⟩
    · rw [List.append_assoc, ← hrest, ← hreach.text_eq]
    · rwa [openBraces_append_of_balanced hkept]

/-- The brace that comes first after the word opens a class, also when another one is closed in between. -/
example : let text := "\x7d a\x7b class b\x7d \x7b if \x7b \x7d \x7d \x7b".toList
    openBraces (text.take 20) = [19, 14] ∧ enclosures text [19, 14] = [.classBody, .classBody] ∧
      openBraces text = [25] ∧ enclosures text [25] = [.other] := by
  decide +kernel

end Methods

end HangulScript
