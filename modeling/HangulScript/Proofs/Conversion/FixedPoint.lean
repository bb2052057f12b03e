import HangulScript.Proofs.Conversion.Regions
import HangulScript.Proofs.Methods.Scope
import HangulScript.Proofs.Scan.Completeness

/-!
# Texts that convert to themselves

Neither pass undoes what it or the other one did: a keyword that is replaced takes its syllables out of the text, and no
pass puts any in. So a text converts to itself only if both passes leave it alone.
-/

namespace HangulScript

open Text

/-! ## Passes that shed characters -/

/-- Each visit copies, or it changes the text and takes out more characters with the property than it puts in. -/
def Trace.Sheds {σ : Type} (p : Char → Bool) (trace : Trace σ) : Prop :=
  ∀ v ∈ trace.visits, (∃ piece, v.edit = .copy piece) ∨
    v.edit.changes = true ∧ v.edit.written.countP p < v.edit.consumed.countP p

section

variable {σ : Type} {p : Char → Bool} {trace : Trace σ}

/-- With each change at least one of these characters goes. -/
theorem Trace.Sheds.countP_le (h : trace.Sheds p) :
    trace.output.countP p + trace.changes.length ≤ trace.source.countP p := by
  rw [Trace.output_eq, Trace.source_eq, Trace.changes]
  unfold Trace.Sheds at h
  generalize trace.visits = visits at h ⊢
  induction visits with
  | nil => exact Nat.le_refl 0
  | cons v visits ih =>
      have htail := ih fun w hw => h w (List.mem_cons_of_mem v hw)
      rw [writtenBy_cons, readBy_cons, List.countP_append, List.countP_append]
      rcases h v List.mem_cons_self with ⟨piece, hcopy⟩ | ⟨hchanges, hlt⟩
      · rw [List.filter_cons_of_neg (by simp [hcopy]), hcopy, Edit.written_copy, Edit.consumed_copy]
        omega
      · rw [List.filter_cons_of_pos (by exact hchanges), List.length_cons]
        omega

theorem Trace.Sheds.output_eq (h : trace.Sheds p) (hnone : trace.changes = []) : trace.output = trace.source := by
  refine List.flatMap_congr fun v hv => ?_
  rcases h v hv with ⟨piece, hcopy⟩ | ⟨hchanges, -⟩
  · rw [hcopy, Edit.written_copy, Edit.consumed_copy]
  · exact absurd hchanges (List.filter_eq_nil_iff.1 hnone v hv)

end

/-! ## Keywords -/

/-- The character is a Hangul syllable. -/
def isSyllable (c : Char) : Bool :=
  0xAC00 ≤ c.toNat && c.toNat ≤ 0xD7A3

/-- A spelling has syllables and its replacement has fewer. -/
theorem Rule.keywordTable_syllables : ∀ rule ∈ keywordTable,
    rule.replacement.countP isSyllable < rule.spelling.countP isSyllable := by
  decide +kernel

namespace Keywords

variable {table : List Rule} {source : List Char}

theorem keywordTable_sheds (source : List Char) : ((keywordPass keywordTable).run source).Sheds isSyllable := by
  intro v hv
  rcases run_visit_cases hv with ⟨rule, -, hrule, hedit, -⟩ | ⟨-, piece, hcopy, -⟩
  · refine Or.inr ⟨by rw [hedit]; exact changes_of_rule rule, ?_⟩
    rw [hedit]
    exact Rule.keywordTable_syllables rule (Rule.mem_of_firstMatch? hrule)
  · exact Or.inl ⟨piece, hcopy⟩

/-- A plain table replaces nothing if no rule matches at a place that the scan comes to in code. -/
theorem changes_eq_nil_iff (hplain : ∀ rule ∈ table, rule.Plain) :
    ((keywordPass table).run source).changes = [] ↔
      ∀ v ∈ ((keywordPass table).run source).visits, v.state.innermost.holdsCode = true →
        ∀ rule ∈ table, rule.appliesAt source v.offset = false := by
  constructor
  · intro hnone v hv hcode rule hmem
    refine Bool.eq_false_iff.2 fun happlies => ?_
    have happlies : rule.applies v.place = true := by
      simpa [Rule.appliesAt, visits_placed hv] using happlies
    have htries := triesRules_of_applies (hplain rule hmem) hcode happlies
    -- rules are tried there and one matches, so the visit is a change
    rcases run_visit_cases hv with ⟨first, -, -, hedit, -⟩ | ⟨hmiss, -⟩
    · exact List.filter_eq_nil_iff.1 hnone v hv (by rw [hedit]; exact changes_of_rule first)
    · exact absurd happlies (List.find?_eq_none.1 (hmiss htries) rule hmem)
  · intro hmiss
    refine List.eq_nil_iff_forall_not_mem.2 fun v hv => ?_
    obtain ⟨rule, -, hplace, htries, hrule, -⟩ := change_cases hv
    have happlies : rule.appliesAt source v.offset = true := by
      simpa [Rule.appliesAt, hplace] using Rule.applies_of_firstMatch? hrule
    rw [hmiss v (List.mem_filter.1 hv).1 htries.1 rule (Rule.mem_of_firstMatch? hrule)] at happlies
    cases happlies

end Keywords

/-! ## Methods -/

namespace Methods

variable {text word : List Char}

theorem methodPass_sheds (text : List Char) : (methodPass.run text).Sheds fun _ => true := by
  intro v hv
  obtain ⟨-, -, hrest, -, hedit, -⟩ := Pass.of_mem_run hv
  have hedit : v.edit = edit v.state v.place := hedit
  rcases edit_cases v.state hrest with ⟨piece, -, hcopy⟩ | hdrops
  · exact Or.inl ⟨piece, hedit.trans hcopy⟩
  · rw [← hedit] at hdrops
    have hchanges := changes_of_drops hdrops
    refine Or.inr ⟨hchanges, ?_⟩
    have hpos : 0 < v.edit.removed.length := by
      rw [List.length_pos_iff]
      simpa [Edit.changes] using hchanges
    simp only [Edit.written, Edit.consumed, hdrops.inserted, List.append_nil, List.countP_true, List.length_append]
    omega

/-- The word stands somewhere in the text, with no identifier character at either side. -/
def HasWord (text word : List Char) : Prop :=
  ∃ lead rest, text = lead ++ rest ∧ (Cursor.mk lead.getLast? rest).holdsWord word = true

theorem hasWord_iff : HasWord text word ↔
    ∃ n < text.length + 1, (Cursor.mk (text.take n).getLast? (text.drop n)).holdsWord word = true := by
  constructor
  · rintro ⟨lead, rest, rfl, hword⟩
    have hlength : lead.length < (lead ++ rest).length + 1 := by
      rw [List.length_append]
      omega
    exact ⟨lead.length, hlength, by simpa using hword⟩
  · rintro ⟨n, -, hword⟩
    exact ⟨text.take n, text.drop n, (List.take_append_drop n text).symm, hword⟩

instance (text word : List Char) : Decidable (HasWord text word) :=
  decidable_of_iff' _ hasWord_iff

/-- Where the pass drops a word, the text has a `function`, and a `class` that comes before it. -/
theorem hasWord_of_change {v : Visit State} (hv : v ∈ (methodPass.run text).changes) :
    HasWord text classWord ∧ HasWord text functionWord := by
  obtain ⟨earlier, after, hreach, hdrops, hrest, -⟩ := change_cases hv
  have htext := hreach.text_eq
  constructor
  · have hinside : InClassBody (readBy earlier) v.place.rest :=
      framesAt_head?_iff.1 ((reaches_atMember hreach).1 hdrops.atMember).1
    obtain ⟨n, -, a, b, htake, -, hword, -⟩ := hinside
    refine ⟨a, b ++ (readBy earlier ++ v.place.rest).drop n, ?_, hword⟩
    rw [← List.append_assoc, ← htake, List.take_append_drop, htext]
  · have hword : (Cursor.mk v.place.before (v.edit.kept ++ (v.edit.removed ++ after))).holdsWord
        (v.edit.kept ++ functionWord) = true := by
      rw [← hrest]
      exact hdrops.word
    refine ⟨readBy earlier ++ v.edit.kept, v.edit.removed ++ after, ?_, ?_⟩
    · rw [List.append_assoc, ← hrest, htext]
    · rw [List.getLast?_append, ← hreach.before_eq]
      exact holdsWord_after_kept hdrops.kept hword

end Methods

/-! ## Both passes -/

/-- What both passes leave has as many syllables as the source only if no keyword was replaced. -/
theorem keyword_changes_eq_nil {source : List Char} (hfix : bareMethods (keyed source) = source) :
    ((keywordPass keywordTable).run source).changes = [] := by
  have hkeyed : (keyed source).countP isSyllable + _ ≤ _ := (Keywords.keywordTable_sheds source).countP_le
  have hbare : (bareMethods (keyed source)).countP isSyllable ≤ (keyed source).countP isSyllable := by
    rw [Methods.bareMethods_eq_survivors]
    exact (survivors_sublist 0 _).countP_le
  rw [hfix] at hbare
  rw [Pass.source_run] at hkeyed
  have hlength : ((keywordPass keywordTable).run source).changes.length = 0 := by omega
  exact List.eq_nil_of_length_eq_zero hlength

theorem keyed_eq_self {source : List Char} (hnone : ((keywordPass keywordTable).run source).changes = []) :
    keyed source = source := by
  rw [keyed, (Keywords.keywordTable_sheds source).output_eq hnone, Pass.source_run]

theorem bareMethods_eq_self_iff {text : List Char} : bareMethods text = text ↔ (methodPass.run text).changes = [] := by
  constructor
  · intro hfix
    have hsheds := (Methods.methodPass_sheds text).countP_le
    have hout : (methodPass.run text).output = text := hfix
    rw [hout, Pass.source_run] at hsheds
    exact List.eq_nil_of_length_eq_zero (by omega)
  · intro hnone
    rw [bareMethods, (Methods.methodPass_sheds text).output_eq hnone, Pass.source_run]

/-- A source converts to itself exactly if the scan comes to no keyword in code and the method pass drops nothing of it.
The method pass drops nothing where no word `class` or no word `function` stands. -/
theorem conversion_fixes_iff (source : List Char) :
    (source.count '{' < Region.maxHoleDepth → ∃ trace, traceKeywords keywordTable source = .ok trace ∧
      (toTypeScript source = .ok source ↔
        (∀ v ∈ trace.visits, v.state.innermost.holdsCode = true →
          ∀ rule ∈ keywordTable, rule.appliesAt source v.offset = false) ∧
        (methodPass.run source).changes = [])) ∧
    (¬ Methods.HasWord source Methods.classWord ∨ ¬ Methods.HasWord source Methods.functionWord →
      (methodPass.run source).changes = []) := by
  constructor
  · intro hbraces
    refine ⟨_, Keywords.traceKeywords_ok keywordTable hbraces, ?_⟩
    rw [toTypeScript_ok hbraces, Except.ok.injEq, ← Keywords.changes_eq_nil_iff Rule.keywordTable_plain]
    constructor
    · intro hfix
      have hnone := keyword_changes_eq_nil hfix
      rw [keyed_eq_self hnone] at hfix
      exact ⟨hnone, bareMethods_eq_self_iff.1 hfix⟩
    · rintro ⟨hnone, hdrops⟩
      rw [keyed_eq_self hnone]
      exact bareMethods_eq_self_iff.2 hdrops
  · intro hword
    refine List.eq_nil_iff_forall_not_mem.2 fun v hv => ?_
    obtain ⟨hclass, hfunction⟩ := Methods.hasWord_of_change hv
    exact hword.elim (absurd hclass) (absurd hfunction)

/-- A class without the word `function`, in braces that do not fit, with a keyword in a string. -/
def canonicalClass : List Char :=
  "\x7d class A \x7b \x7b f() \x7b return \"함수\"; \x7d functional; \x7d".toList

theorem conversion_fixes_iff_canonicalClass :
    canonicalClass.count '{' < Region.maxHoleDepth ∧ ¬ Methods.HasWord canonicalClass Methods.functionWord ∧
      (∃ trace, traceKeywords keywordTable canonicalClass = .ok trace ∧
        (toTypeScript canonicalClass = .ok canonicalClass ↔
          (∀ v ∈ trace.visits, v.state.innermost.holdsCode = true →
            ∀ rule ∈ keywordTable, rule.appliesAt canonicalClass v.offset = false) ∧
          (methodPass.run canonicalClass).changes = [])) ∧
      (methodPass.run canonicalClass).changes = [] := by
  have hbraces : canonicalClass.count '{' < Region.maxHoleDepth := by decide
  have hword : ¬ Methods.HasWord canonicalClass Methods.functionWord := by decide +kernel
  exact ⟨hbraces, hword, (conversion_fixes_iff canonicalClass).1 hbraces,
    (conversion_fixes_iff canonicalClass).2 (Or.inr hword)⟩

end HangulScript
