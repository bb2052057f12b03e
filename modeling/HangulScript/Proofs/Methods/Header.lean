import HangulScript.Proofs.Methods.Scope

/-!
# Class headers

The method pass drops the word of a method whatever stands in the header of its class, as long as no brace does. A brace in
the header is taken for the one of the body, so that the methods keep their words, unless a class body is open around the
class or `class` stands once more before the body.
-/

namespace HangulScript

open Text

/-! ## Blanks and identifiers -/

theorem Text.CodeRange.not_contains_of_apart {a b : List CodeRange} {c : Char}
    (hapart : (a.all fun r => b.all fun s => r.last < s.first || s.last < r.first) = true) (hc : contains a c = true) :
    contains b c = false := by
  refine Bool.eq_false_iff.2 fun hother => ?_
  obtain ⟨r, hr, hrange⟩ := contains_iff.1 hc
  obtain ⟨s, hs, hsrange⟩ := contains_iff.1 hother
  have hranges : r.last < s.first ∨ s.last < r.first := by
    simpa using List.all_eq_true.1 (List.all_eq_true.1 hapart r hr) s hs
  omega

theorem Text.isNameChar_of_isBlank {c : Char} (h : isBlank c = true) : isNameChar c = false := by
  have halnum : isAlphanumeric c = false := CodeRange.not_contains_of_apart (by decide +kernel) h
  have hunderscore : c ≠ '_' := by
    rintro rfl
    revert h
    decide
  have hdollar : c ≠ '$' := by
    rintro rfl
    revert h
    decide
  simp [isNameChar, halnum, hunderscore, hdollar]

namespace Methods

theorem lastSolidAfter_of_blank {before : Option Char} {text : List Char} (h : ∀ c ∈ text, isBlank c = true) :
    lastSolidAfter before text = before := by
  have hnone : text.filter (!isBlank ·) = [] := List.filter_eq_nil_iff.2 fun c hc => by simp [h c hc]
  rw [lastSolidAfter, hnone, List.getLast?_nil, Option.none_or]

/-- A class declaration, cut at a method of its body that is written with the word `function`. -/
structure ClassMethod where
  before : List Char
  /-- What stands between the word `class` and the brace of the body. -/
  header : List Char
  /-- The members before the method. -/
  members : List Char
  gap : List Char
  /-- Nothing, or `async` with a space. -/
  marker : List Char
  after : List Char
  free_before : before.getLast?.any isNameChar = false
  free_header : header.head?.any isNameChar = false
  header_balanced : Balanced '{' '}' header
  members_balanced : Balanced '{' '}' members
  /-- The method comes first in the body or after the end of another member. -/
  members_end : members = [] ∨ ∃ c ∈ [';', '}'], members.getLast? = some c
  gap_blank : ∀ c ∈ gap, isBlank c = true
  marker_cases : marker = [] ∨ marker = asyncLead
  free_after : after.head?.any isNameChar = false

namespace ClassMethod

/-- The text before the brace of the body. -/
def opening (m : ClassMethod) : List Char :=
  m.before ++ (classWord ++ m.header)

/-- The text before the method. -/
def lead (m : ClassMethod) : List Char :=
  m.opening ++ '{' :: (m.members ++ m.gap)

def text (m : ClassMethod) : List Char :=
  m.lead ++ m.marker ++ (functionWord ++ m.after)

/-- The pass drops the word `function` of the method. -/
def Bare (m : ClassMethod) : Prop :=
  ∃ v ∈ (methodPass.run m.text).changes, v.removedAt = byteLength (m.lead ++ m.marker) ∧
    functionWord <+: v.edit.removed

/-- Of the braces before the method, the one of the body or one around the class is the first after a word `class`. -/
def InClass (m : ClassMethod) : Prop :=
  OpensClass m.text m.opening.length ∨ ∃ n ∈ openBraces m.before, OpensClass m.text n

variable (m : ClassMethod)

/-! ## What stands before the method -/

/-- The last solid character before the method is one after which a member begins. -/
theorem lead_cut : ∃ earlier c, c ∈ ['{', ';', '}'] ∧ m.lead = earlier ++ c :: m.gap := by
  rcases m.members_end with hnil | ⟨c, hc, hlast⟩
  · exact ⟨m.opening, '{', by simp, by rw [lead, hnil, List.nil_append]⟩
  · obtain ⟨members, hmembers⟩ := List.getLast?_eq_some_iff.1 hlast
    exact ⟨m.opening ++ '{' :: members, c, List.mem_cons_of_mem _ hc, by simp [lead, hmembers]⟩

theorem lead_free : m.lead.getLast?.any isNameChar = false := by
  obtain ⟨earlier, c, hc, hlead⟩ := m.lead_cut
  have hplain : ['{', ';', '}'].all (!isNameChar ·) = true := by decide +kernel
  rw [hlead, List.getLast?_append_cons, List.getLast?_cons]
  cases hlast : m.gap.getLast? with
  | none => simpa using List.all_eq_true.1 hplain c hc
  | some d => exact isNameChar_of_isBlank (m.gap_blank d (List.mem_of_getLast? hlast))

theorem openBraces_opening : openBraces m.opening = openBraces m.before := by
  rw [opening, ← List.append_assoc, openBraces_append_of_balanced m.header_balanced,
    openBraces_append_of_balanced (balanced_of_notMem (by decide) (by decide))]

/-- The brace of the body is open at the method, and all that were open before the class. -/
theorem openBraces_lead : openBraces (m.lead ++ m.marker) = m.opening.length :: openBraces m.before := by
  have hmarker : Balanced '{' '}' m.marker := by
    rcases m.marker_cases with h | h <;> rw [h] <;> decide
  have hblank : ∀ c, isBlank c = false → c ∉ m.gap := by
    intro c hc hmem
    rw [m.gap_blank c hmem] at hc
    cases hc
  have hgap : Balanced '{' '}' m.gap := balanced_of_notMem (hblank '{' (by decide)) (hblank '}' (by decide))
  have hlead : m.lead = m.opening ++ ['{'] ++ m.members ++ m.gap := by simp [lead]
  rw [openBraces_append_of_balanced hmarker, hlead, openBraces_append_of_balanced hgap,
    openBraces_append_of_balanced m.members_balanced, openBraces_concat_opening, openBraces_opening]

theorem framesAt_lead_iff {rest : List Char} (htext : m.text = m.lead ++ m.marker ++ rest) :
    (framesAt (m.lead ++ m.marker) rest).braces.head? = some .classBody ↔ m.InClass := by
  rw [framesAt_head?_iff, InClassBody, openBraces_lead, ← htext, InClass]
  simp

/-- What is left of the text before the method has the same last solid character. -/
theorem beginsMember_left :
    BeginsMember (lastSolidAfter none (survivors (droppedBy (methodPass.run m.text).visits) 0 m.lead)) := by
  obtain ⟨earlier, c, hc, hlead⟩ := m.lead_cut
  have hends : ['{', ';', '}'].all (fun d => !isBlank d && !(functionWord ++ [' ']).contains d) = true := by decide
  obtain ⟨hsolid, hletter⟩ : isBlank c = false ∧ c ∉ functionWord ++ [' '] := by
    simpa using List.all_eq_true.1 hends c hc
  have hkept : droppedBy (methodPass.run m.text).visits (byteLength earlier) = false := by
    refine Bool.eq_false_iff.2 fun hgone => hletter ?_
    exact mem_word_of_droppedBy (b := m.gap ++ m.marker ++ (functionWord ++ m.after)) (by simp [text, hlead]) hgone
  have hgap : ∀ n, lastSolidAfter (some c) (survivors (droppedBy (methodPass.run m.text).visits) n m.gap) = some c :=
    fun n => lastSolidAfter_of_blank fun d hd => m.gap_blank d ((survivors_sublist n m.gap).subset hd)
  refine ⟨c, List.mem_append_left ['.'] hc, ?_⟩
  rw [hlead, survivors_append, Nat.zero_add, survivors_cons_of_kept hkept, ← List.singleton_append,
    ← List.append_assoc, lastSolidAfter_append, lastSolidAfter_concat, hsolid]
  exact hgap _

/-! ## The word of the method -/

theorem holdsWord_method :
    (Cursor.mk (m.lead ++ m.marker).getLast? (functionWord ++ m.after)).holdsWord functionWord = true := by
  refine Cursor.holdsWord_iff.2 ⟨List.prefix_append _ _, ?_, ?_⟩
  · rw [Cursor.freeBefore]
    rcases m.marker_cases with h | h
    · simp [h, m.lead_free]
    · have hspace : isNameChar ' ' = false := isNameChar_of_isBlank (by decide)
      have hlast : asyncLead.getLast? = some ' ' := by decide
      simp [h, List.getLast?_append, hlast, hspace]
  · simp [Cursor.freeAfter, m.free_after]

/-- The method loses its word exactly inside of a class body. -/
theorem bare_iff_inClass : m.Bare ↔ m.InClass := by
  have hbegins : functionWord <+: functionWord ++ m.after := List.prefix_append _ _
  rw [← m.framesAt_lead_iff rfl]
  constructor
  · rintro ⟨v, hv, hat, -⟩
    obtain ⟨head, kept, hkept, hlead, -, hbraces, -⟩ := (exists_change_iff m.holdsWord_method).1 ⟨v, hv, hat⟩
    rw [hlead]
    rcases hkept with rfl | rfl
    · simpa using hbraces
    · rwa [framesAt_append_async hbegins]
  · intro hbraces
    have hfree : (Cursor.mk m.lead.getLast? (m.marker ++ (functionWord ++ m.after))).freeBefore = true := by
      simp [Cursor.freeBefore, m.lead_free]
    have hframes : (framesAt m.lead (m.marker ++ (functionWord ++ m.after))).braces.head? = some .classBody := by
      rcases m.marker_cases with h | h
      · simpa [h] using hbraces
      · rwa [h, framesAt_append_async hbegins, ← h] at hbraces
    obtain ⟨v, hv, hat⟩ := (exists_change_iff m.holdsWord_method).2
      ⟨m.lead, m.marker, m.marker_cases, rfl, hfree, hframes, m.beginsMember_left⟩
    refine ⟨v, hv, hat, ?_⟩
    obtain ⟨_, _, _, hdrops, -⟩ := change_cases hv
    rcases hdrops.consumed_cases.2 with hremoved | hremoved <;> rw [hremoved]
    exact List.prefix_append _ _

/-- Without a brace in the header the brace of the body is the first one after the `class`. -/
theorem inClass_of_header (hheader : '{' ∉ m.header) : m.InClass := by
  have htext : m.text = m.opening ++ '{' :: (m.members ++ m.gap ++ m.marker ++ (functionWord ++ m.after)) := by
    simp [text, lead]
  have hbrace : '{' ∉ classWord := by decide
  refine Or.inl ?_
  rw [OpensClass, htext, List.take_left, List.drop_left]
  refine ⟨m.before, classWord ++ m.header, rfl, List.append_ne_nil_of_left_ne_nil (by decide) _, ?_, by simp [hbrace, hheader]⟩
  refine Cursor.holdsWord_iff.2 ⟨by simp, by simp [Cursor.freeBefore, m.free_before], ?_⟩
  have hname : isNameChar '{' = false := by decide +kernel
  rw [List.append_assoc, Cursor.advance_append rfl, Cursor.freeAfter]
  cases hhead : m.header.head? with
  | none => simp [List.head?_eq_none_iff.1 hhead, hname]
  | some c =>
      have hfree := m.free_header
      rw [hhead, Option.any_some] at hfree
      simp [List.head?_append, hhead, hfree]

/-- A method loses its word `function` exactly if the brace of the body, or one that is open around the class, is the
first after a word `class`. It does so whatever the header says without braces. -/
theorem method_bare_iff : (m.Bare ↔ m.InClass) ∧ ('{' ∉ m.header → m.Bare) :=
  ⟨m.bare_iff_inClass, fun hheader => m.bare_iff_inClass.2 (m.inClass_of_header hheader)⟩

end ClassMethod

/-- The second method of a class whose header has brackets, but no brace. -/
def boxed : ClassMethod where
  before := "export ".toList
  header := " Box<T extends A[]> extends mixin(Base) implements I<T> ".toList
  members := " function get(): T \x7b\x7d".toList
  gap := "\n".toList
  marker := asyncLead
  after := " put() \x7b\x7d \x7d".toList
  free_before := by decide +kernel
  free_header := by decide +kernel
  header_balanced := by decide +kernel
  members_balanced := by decide +kernel
  members_end := Or.inr ⟨'}', by decide, by decide⟩
  gap_blank := List.all_eq_true.1 (by decide +kernel)
  marker_cases := Or.inr rfl
  free_after := by decide +kernel

theorem boxed_loses_function : '{' ∉ boxed.header ∧ boxed.Bare :=
  have hheader : '{' ∉ boxed.header := by decide +kernel
  ⟨hheader, boxed.method_bare_iff.2 hheader⟩

/-- The first method of a class whose header has an object type. -/
def constrained : ClassMethod where
  before := []
  header := " A<T extends \x7bx: number\x7d> ".toList
  members := []
  gap := [' ']
  marker := []
  after := " f() \x7b\x7d \x7d".toList
  free_before := rfl
  free_header := by decide +kernel
  header_balanced := by decide +kernel
  members_balanced := by decide
  members_end := Or.inl rfl
  gap_blank := List.all_eq_true.1 (by decide +kernel)
  marker_cases := Or.inl rfl
  free_after := by decide +kernel

/-- Balanced braces in the header take the place of those of the body. -/
theorem constrained_keeps_function :
    Balanced '(' ')' constrained.header ∧ Balanced '[' ']' constrained.header ∧ Balanced '<' '>' constrained.header ∧
      Balanced '{' '}' constrained.header ∧
      constrained.text = "class A<T extends \x7bx: number\x7d> \x7b function f() \x7b\x7d \x7d".toList ∧
      bareMethods constrained.text = constrained.text ∧ ¬ constrained.Bare := by
  have hnone : (methodPass.run constrained.text).changes = [] := by
    rw [Pass.run_eq_runWithin]
    decide +kernel
  have hsame : bareMethods constrained.text = constrained.text := by
    rw [bareMethods, Pass.run_eq_runWithin]
    decide +kernel
  refine ⟨by decide +kernel, by decide +kernel, by decide +kernel, by decide +kernel, by decide +kernel, hsame, ?_⟩
  rintro ⟨v, hv, -⟩
  rw [hnone] at hv
  cases hv

end Methods

end HangulScript
