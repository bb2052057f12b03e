import Mathlib.Algebra.Ring.Int.Defs
import HangulScript.Proofs.Scan.Steps

/-!
# The scan as a splice

The output of the scan is the source with the spelling of every recorded substitution replaced and all else copied. This
holds for every table, in any order and with any spellings.
-/

namespace HangulScript

open Text

/-- The rule applies at the byte offset of the source. -/
def Rule.appliesAt (rule : Rule) (source : List Char) (offset : Nat) : Bool :=
  (Cursor.atOffset? source offset).any rule.applies

/-- A rule put in at a byte offset of the source. -/
structure Substitution where
  offset : Nat
  rule : Rule

/-- The byte offset after the spelling. -/
def Substitution.stop (s : Substitution) : Nat :=
  s.offset + byteLength s.rule.spelling

/-- A text that begins at a byte offset, the substitutions in it and the text that they give: each character is copied, or
belongs to a spelling whose replacement is written. -/
inductive Spliced : Nat → List Char → List Substitution → List Char → Prop
  | nil (offset : Nat) : Spliced offset [] [] []
  | copy {offset : Nat} {c : Char} {text out : List Char} {subs : List Substitution}
      (h : Spliced (offset + c.utf8Size) text subs out) : Spliced offset (c :: text) subs (c :: out)
  | replace {offset : Nat} {rule : Rule} {text out : List Char} {subs : List Substitution}
      (h : Spliced (offset + byteLength rule.spelling) text subs out) :
      Spliced offset (rule.spelling ++ text) (⟨offset, rule⟩ :: subs) (rule.replacement ++ out)

namespace Spliced

variable {offset : Nat} {text out : List Char} {subs : List Substitution}

theorem copy_append (piece : List Char) (h : Spliced (offset + byteLength piece) text subs out) :
    Spliced offset (piece ++ text) subs (piece ++ out) := by
  induction piece generalizing offset with
  | nil => exact h
  | cons c piece ih =>
      refine .copy (ih ?_)
      rwa [byteLength_cons, ← Nat.add_assoc] at h

theorem bounds (h : Spliced offset text subs out) :
    ∀ s ∈ subs, offset ≤ s.offset ∧ s.stop ≤ offset + byteLength text := by
  induction h with
  | nil => intro s hs; cases hs
  | copy _ ih =>
      intro s hs
      obtain ⟨hstart, hstop⟩ := ih s hs
      rw [byteLength_cons]
      omega
  | replace _ ih =>
      intro s hs
      rw [byteLength_append]
      rcases List.mem_cons.1 hs with rfl | hs
      · exact ⟨Nat.le_refl _, by simp only [Substitution.stop]; omega⟩
      · obtain ⟨hstart, hstop⟩ := ih s hs
        omega

theorem ascending (h : Spliced offset text subs out) : subs.Pairwise fun a b => a.stop ≤ b.offset := by
  induction h with
  | nil => exact .nil
  | copy _ ih => exact ih
  | replace h ih => exact .cons (fun s hs => (h.bounds s hs).1) ih

theorem length_eq (h : Spliced offset text subs out) :
    (byteLength out : Int) = byteLength text +
      (subs.map fun s => (byteLength s.rule.replacement : Int) - byteLength s.rule.spelling).sum := by
  induction h with
  | nil => rfl
  | copy _ ih =>
      simp only [byteLength_cons, Int.natCast_add, ih]
      omega
  | replace _ ih =>
      simp only [byteLength_append, Int.natCast_add, ih, List.map_cons, List.sum_cons]
      omega

end Spliced

namespace Keywords

variable {table : List Rule} {source : List Char}

/-- The substitution that a visit made, if it made one. -/
def substitution? (table : List Rule) (v : Visit OpenRegions) : Option Substitution :=
  if v.edit.changes then (Rule.firstMatch? table v.place).map (⟨v.offset, ·⟩) else none

theorem changes_of_rule (rule : Rule) : (Edit.mk [] rule.spelling rule.replacement).changes = true := by
  simp [Edit.changes, rule.spelling_ne_nil]

/-- A visit puts in the first rule that matches, or it is a copy and no rule matches where rules are tried. -/
theorem visit_cases (table : List Rule) {v : Visit OpenRegions} (hedit : v.edit = (step table v.state v.place).1)
    (hrest : v.place.rest ≠ []) :
    (∃ rule, TriesRules v.state v.place ∧ Rule.firstMatch? table v.place = some rule ∧
      v.edit = ⟨[], rule.spelling, rule.replacement⟩ ∧ substitution? table v = some ⟨v.offset, rule⟩) ∨
    ((TriesRules v.state v.place → Rule.firstMatch? table v.place = none) ∧
      ∃ piece, v.edit = .copy piece ∧ substitution? table v = none) := by
  rcases step_cases table v.state v.place with ⟨rule, htries, hrule, hstep⟩ | ⟨hnone, hstep⟩
  · rw [hstep] at hedit
    exact Or.inl ⟨rule, htries, hrule, hedit, by simp [substitution?, hedit, changes_of_rule, hrule]⟩
  · obtain ⟨piece, -, hpiece⟩ := step_nil_copies v.state hrest
    rw [hstep, hpiece] at hedit
    exact Or.inr ⟨hnone, piece, hedit, by simp [substitution?, hedit]⟩

theorem spliced_runFrom (table : List Rule) (offset : Nat) (regions : OpenRegions) (place : Cursor) :
    Spliced offset place.rest
      (((keywordPass table).runFrom offset regions place).visits.filterMap (substitution? table))
      ((keywordPass table).runFrom offset regions place).output := by
  induction hn : place.rest.length using Nat.strongRecOn generalizing offset regions place with
  | ind n ih =>
      by_cases hrest : place.rest = []
      · rw [(keywordPass table).runFrom_nil hrest, hrest]
        exact .nil offset
      · have hlt := (keywordPass table).length_advance_lt regions hrest
        obtain ⟨after, hafter⟩ := Pass.consumed_prefix (keywordPass table) regions place
        have htail := ih _ (hn ▸ hlt) (offset + byteLength (step table regions place).1.consumed)
          (step table regions place).2 (place.advance (step table regions place).1.consumed.length) rfl
        have hdrop : place.rest.drop (step table regions place).1.consumed.length = after := by
          rw [← hafter]
          simp
        rw [(keywordPass table).runFrom_of_ne_nil hrest]
        simp only [Trace.output_eq, Cursor.advance_rest, hdrop, keywordPass_step] at htail hafter ⊢
        rw [← hafter, List.filterMap_cons, writtenBy_cons]
        rcases visit_cases table (v := ⟨offset, place, regions, (step table regions place).1⟩) rfl hrest with
          ⟨rule, -, -, hedit, hsub⟩ | ⟨-, piece, hedit, hsub⟩
        · have hstep : (step table regions place).1 = ⟨[], rule.spelling, rule.replacement⟩ := hedit
          simp only [hsub]
          rw [hstep] at htail ⊢
          exact .replace htail
        · have hstep : (step table regions place).1 = .copy piece := hedit
          simp only [hsub]
          rw [hstep, Edit.consumed_copy] at htail ⊢
          rw [Edit.written_copy]
          exact .copy_append piece htail

/-- What the substitutions of a scan say about its source and its output. -/
structure Accounts (table : List Rule) (source : List Char) (trace : Trace OpenRegions) (subs : List Substitution) :
    Prop where
  /-- They are what the scan recorded. -/
  recorded : (trace.changes.map fun v => (v.removedAt, v.edit.removed, v.edit.inserted)) =
    subs.map fun s => (s.offset, s.rule.spelling, s.rule.replacement)
  count : trace.changes.length = subs.length
  ascending : subs.Pairwise fun a b => a.stop ≤ b.offset
  within : ∀ s ∈ subs, s.stop ≤ byteLength source
  spliced : Spliced 0 source subs trace.output
  length_eq : (byteLength trace.output : Int) = byteLength source +
    (subs.map fun s => (byteLength s.rule.replacement : Int) - byteLength s.rule.spelling).sum
  /-- Each was made at a place visited in code, with the first rule of the table that matches there. -/
  first : ∀ s ∈ subs, (∃ v ∈ trace.visits, v.offset = s.offset ∧ v.state.innermost.holdsCode = true) ∧
    ∃ earlier later, table = earlier ++ s.rule :: later ∧ s.rule.appliesAt source s.offset = true ∧
      ∀ rule ∈ earlier, rule.appliesAt source s.offset = false
  placed : ∀ v ∈ trace.visits, Cursor.atOffset? source v.offset = some v.place
  /-- Where rules are tried, nothing is copied that a rule matches. -/
  complete : ∀ v ∈ trace.visits, TriesRules v.state v.place → v.edit.changes = false →
    ∀ rule ∈ table, rule.appliesAt source v.offset = false

theorem visits_placed {v : Visit OpenRegions} (hv : v ∈ ((keywordPass table).run source).visits) :
    Cursor.atOffset? source v.offset = some v.place := by
  obtain ⟨earlier, hreach, -, hoff, -⟩ := Pass.of_mem_run hv
  rw [hoff]
  exact hreach.atOffset

theorem run_visit_cases {v : Visit OpenRegions} (hv : v ∈ ((keywordPass table).run source).visits) :
    (∃ rule, TriesRules v.state v.place ∧ Rule.firstMatch? table v.place = some rule ∧
      v.edit = ⟨[], rule.spelling, rule.replacement⟩ ∧ substitution? table v = some ⟨v.offset, rule⟩) ∨
    ((TriesRules v.state v.place → Rule.firstMatch? table v.place = none) ∧
      ∃ piece, v.edit = .copy piece ∧ substitution? table v = none) := by
  obtain ⟨_, _, hrest, _, hedit, _⟩ := Pass.of_mem_run hv
  exact visit_cases table hedit hrest

/-- A change was made where rules are tried, with the first rule that matches. -/
theorem change_cases {v : Visit OpenRegions} (hv : v ∈ ((keywordPass table).run source).changes) :
    ∃ rule, v.removedAt = v.offset ∧ Cursor.atOffset? source v.offset = some v.place ∧ TriesRules v.state v.place ∧
      Rule.firstMatch? table v.place = some rule ∧ v.edit = ⟨[], rule.spelling, rule.replacement⟩ := by
  obtain ⟨hv, hchanges⟩ := List.mem_filter.1 hv
  rcases run_visit_cases hv with ⟨rule, htries, hrule, hedit, -⟩ | ⟨-, piece, hedit, -⟩
  · exact ⟨rule, by simp [Visit.removedAt, hedit], visits_placed hv, htries, hrule, hedit⟩
  · rw [hedit] at hchanges
    cases hchanges

theorem recorded_eq (table : List Rule) (source : List Char) (visits : List (Visit OpenRegions))
    (h : ∀ v ∈ visits, v ∈ ((keywordPass table).run source).visits) :
    ((visits.filter (·.edit.changes)).map fun v => (v.removedAt, v.edit.removed, v.edit.inserted)) =
      (visits.filterMap (substitution? table)).map fun s => (s.offset, s.rule.spelling, s.rule.replacement) := by
  induction visits with
  | nil => rfl
  | cons v visits ih =>
      have htail := ih fun w hw => h w (List.mem_cons_of_mem v hw)
      rcases run_visit_cases (h v List.mem_cons_self) with ⟨rule, -, -, hedit, hsub⟩ | ⟨-, piece, hedit, hsub⟩
      · rw [List.filter_cons_of_pos (by rw [hedit]; exact changes_of_rule rule), List.filterMap_cons, hsub]
        rw [List.map_cons, List.map_cons, htail]
        simp [hedit, Visit.removedAt]
      · rw [List.filter_cons_of_neg (by simp [hedit]), List.filterMap_cons, hsub]
        exact htail

/-- The scan of a text with few open braces splices its substitutions into the text, whatever the table is. -/
theorem scan_splices (table : List Rule) {source : List Char} (hbraces : source.count '{' < Region.maxHoleDepth) :
    ∃ trace subs, traceKeywords table source = .ok trace ∧ Accounts table source trace subs := by
  let trace := (keywordPass table).run source
  let subs := trace.visits.filterMap (substitution? table)
  have hspliced : Spliced 0 source subs trace.output := spliced_runFrom table 0 .bottom (Cursor.start source)
  have hrecorded := recorded_eq table source trace.visits fun _ hv => hv
  refine ⟨trace, subs, traceKeywords_ok table hbraces, ?_⟩
  constructor
  case recorded => exact hrecorded
  case count => simpa [Trace.changes] using congrArg List.length hrecorded
  case ascending => exact hspliced.ascending
  case within => intro s hs; simpa using (hspliced.bounds s hs).2
  case spliced => exact hspliced
  case length_eq => exact hspliced.length_eq
  case first =>
    intro s hs
    obtain ⟨v, hv, hsub⟩ := List.mem_filterMap.1 hs
    have hplace := visits_placed hv
    rcases run_visit_cases hv with ⟨rule, htries, hrule, -, heq⟩ | ⟨-, piece, -, heq⟩
    · obtain rfl := Option.some.inj (heq.symm.trans hsub)
      obtain ⟨happlies, earlier, later, htable, hearlier⟩ := List.find?_eq_some_iff_append.1 hrule
      refine ⟨⟨v, hv, rfl, htries.1⟩, earlier, later, htable, ?_, ?_⟩
      · simpa [Rule.appliesAt, hplace] using happlies
      · intro other hother
        simpa [Rule.appliesAt, hplace] using hearlier other hother
    · cases heq.symm.trans hsub
  case placed => intro v hv; exact visits_placed hv
  case complete =>
    intro v hv htries hcopy rule hrule
    rcases run_visit_cases hv with ⟨first, -, -, hedit, -⟩ | ⟨hnone, -⟩
    · rw [hedit, changes_of_rule] at hcopy
      cases hcopy
    · have happlies := List.find?_eq_none.1 (hnone htries) rule hrule
      simpa [Rule.appliesAt, visits_placed hv] using happlies

/-- Rules that hide each other and whose spellings hold delimiters. -/
def overlappingTable : List Rule :=
  [.anywhere "a" "", .anywhere "ab" "long", .anywhere "\"" "?", .alone "b/*" "/**/"]

/-- Spellings in code, in a string, over the beginning of a comment and in a hole. -/
def overlappingText : List Char :=
  "ab \"ab\" b/* `a $\x7bab\x7d`".toList

theorem scan_splices_overlapping :
    overlappingText.count '{' < Region.maxHoleDepth ∧
      ∃ trace subs, traceKeywords overlappingTable overlappingText = .ok trace ∧
        Accounts overlappingTable overlappingText trace subs :=
  ⟨by decide, scan_splices overlappingTable (by decide)⟩

/-- The shorter rule is the first one, and a spelling can hide the beginning of a comment. -/
example : ((keywordPass overlappingTable).run overlappingText).output = "b \"ab\" /**/ `a $\x7bb\x7d`".toList := by
  rw [Pass.run_eq_runWithin]
  decide +kernel

end Keywords

end HangulScript
