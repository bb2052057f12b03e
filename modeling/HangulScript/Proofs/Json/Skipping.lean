import Mathlib.Data.List.DropRight
import HangulScript.Json.Skip
import HangulScript.Proofs.Json.Reading

/-!
# Skipping

A value is skipped as a whole, whatever stands in it and however deep it nests.
-/

namespace HangulScript.Json

variable {c : Char} {s rest : List Char}

/-! ## Skipping one step -/

section

variable {brackets outer : List Bracket} {bracket : Bracket} {after : List Char}

theorem skipFrom_value_array (h : skipSpace s = '[' :: rest) :
    skipFrom .value brackets s = skipFrom .firstItem (.array :: brackets) rest := by
  conv => lhs; rw [skipFrom]
  split <;> simp_all

theorem skipFrom_value_object (h : skipSpace s = '{' :: rest) :
    skipFrom .value brackets s = skipFrom .firstItem (.object :: brackets) rest := by
  conv => lhs; rw [skipFrom]
  split <;> simp_all

theorem skipFrom_value_scalar (h : skipSpace s = c :: rest) (harray : c ≠ '[') (hobject : c ≠ '{')
    (hscalar : skipScalar c rest = .ok after) : skipFrom .value brackets s = skipFrom .separator brackets after := by
  have harray := harray.symm
  have hobject := hobject.symm
  conv => lhs; rw [skipFrom]
  split <;> simp_all
  split <;> simp_all

theorem skipFrom_separator_comma (h : skipSpace s = ',' :: rest) :
    skipFrom .separator (bracket :: outer) s = skipFrom bracket.item (bracket :: outer) rest := by
  conv => lhs; rw [skipFrom]
  split <;> simp_all

theorem skipFrom_separator_closing (h : skipSpace s = bracket.closing :: rest) :
    skipFrom .separator (bracket :: outer) s = skipFrom .separator outer rest := by
  conv => lhs; rw [skipFrom]
  split <;> simp_all
  cases bracket <;> simp [Bracket.closing]

theorem skipFrom_firstItem_closing (h : skipSpace s = bracket.closing :: rest) :
    skipFrom .firstItem (bracket :: outer) s = skipFrom .separator outer rest := by
  conv => lhs; rw [skipFrom]
  split <;> simp_all

/-- Where a blank may stand, none counts. -/
theorem skipFrom_congr {expected : Expected} {t : List Char} (hlooks : expected = .value ∨ brackets ≠ [])
    (h : skipSpace s = skipSpace t) : skipFrom expected brackets s = skipFrom expected brackets t := by
  rw [skipFrom.eq_def, skipFrom.eq_def _ _ t]
  generalize skipSpace s = a at h ⊢
  subst h
  cases brackets with
  | nil =>
      obtain rfl := hlooks.resolve_right (not_not_intro rfl)
      rfl
  | cons => cases expected <;> rfl

theorem skipFrom_firstItem_item (h : skipSpace s = c :: rest) (hc : c ≠ bracket.closing) :
    skipFrom .firstItem (bracket :: outer) s = skipFrom bracket.item (bracket :: outer) s := by
  have hfirst : skipFrom .firstItem (bracket :: outer) s = skipFrom bracket.item (bracket :: outer) (c :: rest) := by
    conv => lhs; rw [skipFrom]
    split <;> simp_all
  rw [hfirst, ← h]
  exact skipFrom_congr (Or.inr (List.cons_ne_nil _ _)) (List.dropWhile_idempotent isSpace s)

theorem skipFrom_member (h : skipSpace s = '"' :: rest) (hname : skipName rest = .ok after) :
    skipFrom .member brackets s = skipFrom .value brackets after := by
  conv => lhs; rw [skipFrom]
  split <;> simp_all
  split <;> simp_all

end

/-! ## Skipping a value -/

theorem SpellsNumeral.head {numeral : Numeral} (h : SpellsNumeral s numeral) :
    ∃ c rest, s = c :: rest ∧ c.isDigit = true := by
  obtain ⟨hwhole, -, -⟩ := h
  obtain ⟨c, rest, rfl⟩ := List.exists_cons_of_ne_nil hwhole.ne_nil
  exact ⟨c, _, rfl, hwhole.digit c (List.mem_cons_self ..)⟩

theorem skipScalar_digit (h : c.isDigit = true) (rest : List Char) : skipScalar c rest = skipNumber (c :: rest) := by
  rw [skipScalar.eq_6]
  · rw [if_pos h]
  all_goals
    rintro rfl
    cases h

theorem SpellsNumeral.skipNumber_append {numeral : Numeral} (h : SpellsNumeral s numeral) (hrest : Stops rest) :
    skipNumber (s ++ rest) = .ok rest := by
  rw [skipNumber, h.readNumeral_append .malformed hrest]
  rfl

theorem SpellsScalar.skip {datum : Datum} (h : SpellsScalar s datum) (hrest : Stops rest) :
    ∃ c after, s = c :: after ∧ c ∉ separators ∧ c ≠ '[' ∧ c ≠ '{' ∧ skipScalar c (after ++ rest) = .ok rest := by
  cases h with
  | null | true | false => exact ⟨_, _, rfl, by decide, by decide, by decide, rfl⟩
  | negative h => exact ⟨_, _, rfl, by decide, by decide, by decide, h.skipNumber_append hrest⟩
  | string h =>
      refine ⟨_, _, rfl, by decide, by decide, by decide, ?_⟩
      rw [List.append_assoc]
      exact skipString_append h rest
  | number h =>
      obtain ⟨c, after, rfl, hdigit⟩ := h.head
      refine ⟨c, after, rfl, fun hmem => ?_, ?_, ?_, ?_⟩
      · rw [not_isDigit_of_mem_separators hmem] at hdigit
        cases hdigit
      · rintro rfl
        cases hdigit
      · rintro rfl
        cases hdigit
      · rw [skipScalar_digit hdigit]
        exact h.skipNumber_append hrest

theorem SpellsValue.head {datum : Datum} (h : SpellsValue s datum) : ∃ c rest, s = c :: rest ∧ c ∉ separators := by
  cases h with
  | scalar h =>
      obtain ⟨c, after, hs, hbegins, -⟩ := h.skip stops_nil
      exact ⟨c, after, hs, hbegins⟩
  | emptyArray | array | emptyObject | object => exact ⟨_, _, rfl, by decide⟩

theorem SpellsValue.skipSpace_append {datum : Datum} (h : SpellsValue s datum) (rest : List Char) :
    skipSpace (s ++ rest) = s ++ rest := by
  obtain ⟨c, after, rfl, hbegins⟩ := h.head
  exact skipSpace_cons (not_isSpace_of_notMem_separators hbegins) _

theorem skipName_append {name : List Nat} {after : List Char} (h : SpellsUnits s name) (hafter : IsBlank after)
    (rest : List Char) : skipName (s ++ '"' :: (after ++ ':' :: rest)) = .ok rest := by
  rw [skipName, skipString_append h]
  simp only [bind, Except.bind]
  rw [Json.skipSpace_append hafter, skipSpace_cons (by decide)]
  rfl

theorem SpellsName.skipSpace_append {start : List Char} {name : List Nat} (h : SpellsName start name) (rest : List Char) :
    ∃ s after, SpellsUnits s name ∧ IsBlank after ∧
      skipSpace (start ++ rest) = '"' :: (s ++ '"' :: (after ++ ':' :: rest)) := by
  obtain @⟨before, s, after, name, hbefore, h, hafter⟩ := h
  refine ⟨s, after, h, hafter, ?_⟩
  simp only [List.append_assoc, List.cons_append, List.nil_append]
  rw [Json.skipSpace_append hbefore, skipSpace_cons (by decide)]

theorem SpellsName.skipFrom_append {start : List Char} {name : List Nat} (h : SpellsName start name) (rest : List Char)
    (brackets : List Bracket) : skipFrom .member brackets (start ++ rest) = skipFrom .value brackets rest := by
  obtain ⟨s, after, h, hafter, hspace⟩ := h.skipSpace_append rest
  exact skipFrom_member hspace (skipName_append h hafter rest)

theorem Spells.head {datum : Datum} (h : Spells s datum) (rest : List Char) :
    ∃ c after, skipSpace (s ++ rest) = c :: after ∧ c ∉ separators := by
  obtain @⟨before, s, after, datum, hbefore, hvalue, hafter⟩ := h
  obtain ⟨c, tail, rfl, hc⟩ := hvalue.head
  refine ⟨c, tail ++ (after ++ rest), ?_, hc⟩
  simp only [List.append_assoc, List.cons_append]
  rw [skipSpace_append hbefore, skipSpace_cons (not_isSpace_of_notMem_separators hc)]

theorem SpellsItems.head {items : List Datum} (h : SpellsItems s items) (rest : List Char) :
    ∃ c after, skipSpace (s ++ rest) = c :: after ∧ c ∉ separators := by
  cases h with
  | last h => exact h.head rest
  | more h hrest =>
      rw [List.append_assoc]
      exact h.head _

theorem SpellsMembers.head {members : List (List Nat × Datum)} (h : SpellsMembers s members) (rest : List Char) :
    ∃ after, skipSpace (s ++ rest) = '"' :: after := by
  have hname : ∀ {start name}, SpellsName start name → ∀ rest, ∃ after, skipSpace (start ++ rest) = '"' :: after := by
    intro start name hname rest
    obtain ⟨s, after, -, -, hspace⟩ := hname.skipSpace_append rest
    exact ⟨_, hspace⟩
  cases h with
  | last hstart h | more hstart h hrest =>
      rw [List.append_assoc]
      exact hname hstart _

mutual

theorem SpellsValue.skipFrom_append {s rest : List Char} {datum : Datum} (h : SpellsValue s datum) (hrest : Stops rest)
    (brackets : List Bracket) : skipFrom .value brackets (s ++ rest) = skipFrom .separator brackets rest := by
  match h with
  | .scalar h =>
      obtain ⟨c, after, rfl, hc, harray, hobject, hskip⟩ := h.skip hrest
      exact skipFrom_value_scalar (skipSpace_cons (not_isSpace_of_notMem_separators hc) _) harray hobject hskip
  | .emptyArray hblank =>
      rw [List.cons_append, List.append_assoc, skipFrom_value_array (skipSpace_cons (by decide) _)]
      exact skipFrom_firstItem_closing ((skipSpace_append hblank _).trans (skipSpace_cons (by decide) _))
  | .array h =>
      obtain ⟨c, after, hspace, hc⟩ := h.head (']' :: rest)
      rw [List.cons_append, List.append_assoc, skipFrom_value_array (skipSpace_cons (by decide) _), List.singleton_append,
        skipFrom_firstItem_item hspace fun hclosing => hc (hclosing ▸ by decide)]
      exact h.skipFrom_append rest brackets
  | .emptyObject hblank =>
      rw [List.cons_append, List.append_assoc, skipFrom_value_object (skipSpace_cons (by decide) _)]
      exact skipFrom_firstItem_closing ((skipSpace_append hblank _).trans (skipSpace_cons (by decide) _))
  | .object h =>
      obtain ⟨after, hspace⟩ := h.head ('}' :: rest)
      rw [List.cons_append, List.append_assoc, skipFrom_value_object (skipSpace_cons (by decide) _), List.singleton_append,
        skipFrom_firstItem_item hspace (by decide)]
      exact h.skipFrom_append rest brackets

theorem Spells.skipFrom_append {s rest : List Char} {datum : Datum} (h : Spells s datum) (hrest : Stops rest)
    (bracket : Bracket) (outer : List Bracket) :
    skipFrom .value (bracket :: outer) (s ++ rest) = skipFrom .separator (bracket :: outer) rest := by
  match h with
  | .intro hbefore h hafter =>
      rw [List.append_assoc, List.append_assoc, skipFrom_congr (Or.inl rfl) (skipSpace_append hbefore _),
        h.skipFrom_append (hrest.append hafter), skipFrom_congr (Or.inr (List.cons_ne_nil _ _)) (skipSpace_append hafter _)]

theorem SpellsItems.skipFrom_append {s : List Char} {items : List Datum} (h : SpellsItems s items) (rest : List Char)
    (outer : List Bracket) : skipFrom .value (.array :: outer) (s ++ ']' :: rest) = skipFrom .separator outer rest := by
  match h with
  | .last h =>
      rw [h.skipFrom_append (stops_cons (by decide) rest)]
      exact skipFrom_separator_closing (skipSpace_cons (by decide) _)
  | .more h hrest =>
      rw [List.append_assoc, List.cons_append, h.skipFrom_append (stops_cons (by decide) _),
        skipFrom_separator_comma (skipSpace_cons (by decide) _)]
      exact hrest.skipFrom_append rest outer

theorem SpellsMembers.skipFrom_append {s : List Char} {members : List (List Nat × Datum)} (h : SpellsMembers s members)
    (rest : List Char) (outer : List Bracket) :
    skipFrom .member (.object :: outer) (s ++ '}' :: rest) = skipFrom .separator outer rest := by
  match h with
  | .last hname h =>
      rw [List.append_assoc, hname.skipFrom_append, h.skipFrom_append (stops_cons (by decide) rest)]
      exact skipFrom_separator_closing (skipSpace_cons (by decide) _)
  | .more hname h hrest =>
      rw [List.append_assoc, List.append_assoc, List.cons_append, hname.skipFrom_append,
        h.skipFrom_append (stops_cons (by decide) _), skipFrom_separator_comma (skipSpace_cons (by decide) _)]
      exact hrest.skipFrom_append rest outer

end

/-- A value is skipped up to the blanks behind it. -/
theorem SpellsValue.skipValue_append {datum : Datum} (h : SpellsValue s datum) (hrest : Stops rest) :
    skipValue (s ++ rest) = .ok rest := by
  rw [skipValue, h.skipFrom_append hrest, skipFrom]

end HangulScript.Json
