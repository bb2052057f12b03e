import HangulScript.Proofs.Json.Skipping

/-!
# Unambiguity

A JSON text says one thing. Where a value ends is known from the skipping of it, so two derivations cut a text at the same
places.
-/

namespace HangulScript.Json

variable {s t rest rest' : List Char} {datum datum' : Datum}

/-! ## Scalars -/

theorem IsHexDigit.unique {c : Char} {n n' : Nat} (h : IsHexDigit c n) (h' : IsHexDigit c n') : n = n' :=
  Option.some.inj (h.hexDigit?.symm.trans h'.hexDigit?)

theorem SpellsUnits.unique {units units' : List Nat} (h : SpellsUnits s units) (h' : SpellsUnits s units') :
    units = units' := by
  induction h generalizing units' with
  | nil =>
      cases h'
      rfl
  | char hquote hescape hcontrol h ih =>
      cases h' with
      | char _ _ _ h' => rw [ih h']
      | escape | code => exact absurd rfl hescape
  | escape hletter h ih =>
      obtain ⟨hescaped, hu⟩ := escaped?_of_mem_escapes hletter
      cases h' with
      | char _ hescape => exact absurd rfl hescape
      | escape hletter' h' =>
          obtain rfl := Option.some.inj (hescaped.symm.trans (escaped?_of_mem_escapes hletter').1)
          rw [ih h']
      | code => exact absurd rfl hu
  | code h₃ h₂ h₁ h₀ h ih =>
      cases h' with
      | char _ hescape => exact absurd rfl hescape
      | escape hletter => exact absurd rfl (escaped?_of_mem_escapes hletter).2
      | code h₃' h₂' h₁' h₀' h' => rw [h₃.unique h₃', h₂.unique h₂', h₁.unique h₁', h₀.unique h₀', ih h']

theorem SpellsNumeral.unique {numeral numeral' : Numeral} (h : SpellsNumeral s numeral) (h' : SpellsNumeral s numeral') :
    numeral = numeral' := by
  have hread := (h.readNumeral_append .malformed stops_nil).symm.trans (h'.readNumeral_append .malformed stops_nil)
  exact congrArg Prod.fst (Except.ok.inj hread)

theorem not_spellsNumeral_cons {c : Char} {numeral : Numeral} (hc : c.isDigit = false) :
    ¬ SpellsNumeral (c :: s) numeral := by
  intro h
  obtain ⟨first, rest, hs, hdigit⟩ := h.head
  obtain ⟨rfl, -⟩ := List.cons.inj hs
  rw [hc] at hdigit
  cases hdigit

theorem spellsScalar_quote_iff :
    SpellsScalar ('"' :: t) datum ↔ ∃ s units, t = s ++ ['"'] ∧ SpellsUnits s units ∧ datum = .string units := by
  constructor
  · intro h
    obtain ⟨whole, hwhole⟩ : ∃ whole, '"' :: t = whole := ⟨_, rfl⟩
    rw [hwhole] at h
    cases h with
    | null | true | false | negative => cases hwhole
    | number h => exact absurd (hwhole ▸ h) (not_spellsNumeral_cons (by decide))
    | string h => exact ⟨_, _, (List.cons.inj hwhole).2, h, rfl⟩
  · rintro ⟨s, units, rfl, h, rfl⟩
    exact .string h

theorem SpellsScalar.unique (h : SpellsScalar s datum) (h' : SpellsScalar s datum') : datum = datum' := by
  have hletter : ∀ c ∈ ['n', 't', 'f', '-'], c.isDigit = Bool.false := by simp
  cases h with
  | null | true | false =>
      cases h' with
      | number h' => exact absurd h' (not_spellsNumeral_cons (hletter _ (by decide)))
      | _ => rfl
  | number h =>
      cases h' with
      | number h' => rw [h.unique h']
      | null | true | false | negative => exact absurd h (not_spellsNumeral_cons (hletter _ (by decide)))
      | string => exact absurd h (not_spellsNumeral_cons rfl)
  | negative h =>
      cases h' with
      | negative h' => rw [h.unique h']
      | number h' => exact absurd h' (not_spellsNumeral_cons (hletter _ (by decide)))
  | string h =>
      obtain ⟨s', units', hs, h', rfl⟩ := spellsScalar_quote_iff.1 h'
      obtain rfl := List.append_cancel_right hs
      rw [h.unique h']

/-! ## Where a value ends -/

theorem SpellsValue.cut {before before' s s' : List Char} (h : SpellsValue s datum) (h' : SpellsValue s' datum')
    (hbefore : IsBlank before) (hbefore' : IsBlank before') (hrest : Stops rest) (hrest' : Stops rest')
    (hs : before ++ (s ++ rest) = before' ++ (s' ++ rest')) : s = s' ∧ rest = rest' := by
  have hvalue := congrArg skipSpace hs
  rw [Json.skipSpace_append hbefore, Json.skipSpace_append hbefore', h.skipSpace_append, h'.skipSpace_append] at hvalue
  have hskip := h.skipValue_append hrest
  rw [hvalue, h'.skipValue_append hrest'] at hskip
  obtain rfl := Except.ok.inj hskip
  exact ⟨List.append_cancel_right hvalue, rfl⟩

theorem stops_blank (h : IsBlank s) : Stops s := by
  simpa using stops_nil.append h

/-- What may stand after a value and its blanks. -/
def Closes (rest : List Char) : Prop :=
  Stops rest ∧ skipSpace rest = rest

theorem closes_nil : Closes [] :=
  ⟨stops_nil, rfl⟩

theorem closes_comma (rest : List Char) : Closes (',' :: rest) :=
  ⟨stops_cons (by decide) rest, skipSpace_cons (by decide) rest⟩

theorem Spells.cut {s s' : List Char} (h : Spells s datum) (h' : Spells s' datum') (hrest : Closes rest)
    (hrest' : Closes rest') (hs : s ++ rest = s' ++ rest') : s = s' ∧ rest = rest' := by
  suffices rest = rest' by
    subst this
    exact ⟨List.append_cancel_right hs, rfl⟩
  obtain ⟨hbefore, h, hafter⟩ := h
  obtain ⟨hbefore', h', hafter'⟩ := h'
  simp only [List.append_assoc] at hs
  obtain ⟨-, hbehind⟩ := h.cut h' hbefore hbefore' (hrest.1.append hafter) (hrest'.1.append hafter') hs
  have hclose := congrArg skipSpace hbehind
  rwa [skipSpace_append hafter, skipSpace_append hafter', hrest.2, hrest'.2] at hclose

theorem SpellsName.cut {start start' : List Char} {name name' : List Nat} (h : SpellsName start name)
    (h' : SpellsName start' name') (hs : start ++ rest = start' ++ rest') : name = name' ∧ rest = rest' := by
  obtain ⟨s, after, h, hafter, hspace⟩ := h.skipSpace_append rest
  obtain ⟨s', after', h', hafter', hspace'⟩ := h'.skipSpace_append rest'
  rw [hs, hspace'] at hspace
  obtain ⟨-, htext⟩ := List.cons.inj hspace
  have hstring := skipString_append h (after ++ ':' :: rest)
  rw [← htext, skipString_append h'] at hstring
  have hname := skipName_append h hafter rest
  rw [← htext, skipName_append h' hafter'] at hname
  obtain rfl := Except.ok.inj hname
  rw [Except.ok.inj hstring] at htext
  rw [← List.append_cancel_right htext] at h
  exact ⟨h.unique h', rfl⟩

/-! ## Values -/

theorem SpellsItems.uncons {items : List Datum} (h : SpellsItems s items) :
    ∃ first tail datum others, s = first ++ tail ∧ items = datum :: others ∧ Spells first datum ∧ Closes tail ∧
      (tail = [] ∧ others = [] ∨ ∃ rest, tail = ',' :: rest ∧ SpellsItems rest others) := by
  cases h with
  | last h => exact ⟨s, [], _, [], (List.append_nil s).symm, rfl, h, closes_nil, Or.inl ⟨rfl, rfl⟩⟩
  | more h hrest => exact ⟨_, _, _, _, rfl, rfl, h, closes_comma _, Or.inr ⟨_, rfl, hrest⟩⟩

theorem SpellsMembers.uncons {members : List (List Nat × Datum)} (h : SpellsMembers s members) :
    ∃ start first tail name datum others, s = start ++ (first ++ tail) ∧ members = (name, datum) :: others ∧
      SpellsName start name ∧ Spells first datum ∧ Closes tail ∧
      (tail = [] ∧ others = [] ∨ ∃ rest, tail = ',' :: rest ∧ SpellsMembers rest others) := by
  cases h with
  | last hname h => exact ⟨_, _, [], _, _, [], by rw [List.append_nil], rfl, hname, h, closes_nil, Or.inl ⟨rfl, rfl⟩⟩
  | more hname h hrest => exact ⟨_, _, _, _, _, _, rfl, rfl, hname, h, closes_comma _, Or.inr ⟨_, rfl, hrest⟩⟩

theorem SpellsItems.not_isBlank {items : List Datum} (h : SpellsItems s items) : ¬ IsBlank s := by
  intro hblank
  obtain ⟨c, after, hspace, -⟩ := h.head []
  rw [List.append_nil, skipSpace_blank hblank] at hspace
  cases hspace

theorem SpellsMembers.not_isBlank {members : List (List Nat × Datum)} (h : SpellsMembers s members) : ¬ IsBlank s := by
  intro hblank
  obtain ⟨after, hspace⟩ := h.head []
  rw [List.append_nil, skipSpace_blank hblank] at hspace
  cases hspace

theorem SpellsScalar.of_value (h : SpellsScalar s datum) (h' : SpellsValue s datum') : SpellsScalar s datum' := by
  obtain ⟨c, after, hs, -, harray, hobject, -⟩ := h.skip stops_nil
  cases h' with
  | scalar h' => exact h'
  | emptyArray | array => exact absurd (List.cons.inj hs).1.symm harray
  | emptyObject | object => exact absurd (List.cons.inj hs).1.symm hobject

theorem SpellsValue.array_inv (h : SpellsValue ('[' :: (s ++ [']'])) datum) :
    ∃ items, datum = .array items ∧ (IsBlank s ∧ items = [] ∨ SpellsItems s items) := by
  obtain ⟨whole, hwhole⟩ : ∃ whole, '[' :: (s ++ [']']) = whole := ⟨_, rfl⟩
  rw [hwhole] at h
  cases h with
  | scalar h =>
      obtain ⟨c, after, rfl, -, harray, -⟩ := h.skip stops_nil
      exact absurd (List.cons.inj hwhole).1.symm harray
  | emptyArray hblank =>
      obtain rfl := List.append_cancel_right (List.cons.inj hwhole).2
      exact ⟨[], rfl, Or.inl ⟨hblank, rfl⟩⟩
  | array h =>
      obtain rfl := List.append_cancel_right (List.cons.inj hwhole).2
      exact ⟨_, rfl, Or.inr h⟩
  | emptyObject | object => cases hwhole

theorem SpellsValue.object_inv (h : SpellsValue ('{' :: (s ++ ['}'])) datum) :
    ∃ members, datum = .object members ∧ (IsBlank s ∧ members = [] ∨ SpellsMembers s members) := by
  obtain ⟨whole, hwhole⟩ : ∃ whole, '{' :: (s ++ ['}']) = whole := ⟨_, rfl⟩
  rw [hwhole] at h
  cases h with
  | scalar h =>
      obtain ⟨c, after, rfl, -, -, hobject, -⟩ := h.skip stops_nil
      exact absurd (List.cons.inj hwhole).1.symm hobject
  | emptyArray | array => cases hwhole
  | emptyObject hblank =>
      obtain rfl := List.append_cancel_right (List.cons.inj hwhole).2
      exact ⟨[], rfl, Or.inl ⟨hblank, rfl⟩⟩
  | object h =>
      obtain rfl := List.append_cancel_right (List.cons.inj hwhole).2
      exact ⟨_, rfl, Or.inr h⟩

-- By the first derivation. The second one is cut where the first one is, and the parts are compared.
mutual

theorem SpellsValue.unique {s : List Char} {datum datum' : Datum} (h : SpellsValue s datum) (h' : SpellsValue s datum') :
    datum = datum' := by
  match h with
  | .scalar h => exact h.unique (h.of_value h')
  | .emptyArray hblank =>
      obtain ⟨items, rfl, ⟨-, rfl⟩ | h'⟩ := h'.array_inv
      · rfl
      · exact absurd hblank h'.not_isBlank
  | .array h =>
      obtain ⟨items, rfl, ⟨hblank, -⟩ | h'⟩ := h'.array_inv
      · exact absurd hblank h.not_isBlank
      · rw [h.unique h']
  | .emptyObject hblank =>
      obtain ⟨members, rfl, ⟨-, rfl⟩ | h'⟩ := h'.object_inv
      · rfl
      · exact absurd hblank h'.not_isBlank
  | .object h =>
      obtain ⟨members, rfl, ⟨hblank, -⟩ | h'⟩ := h'.object_inv
      · exact absurd hblank h.not_isBlank
      · rw [h.unique h']
termination_by structural h

theorem Spells.unique {s : List Char} {datum datum' : Datum} (h : Spells s datum) (h' : Spells s datum') :
    datum = datum' := by
  obtain ⟨whole, hwhole⟩ : ∃ whole, s = whole := ⟨_, rfl⟩
  rw [hwhole] at h'
  match h, h' with
  | .intro hbefore h hafter, .intro hbefore' h' hafter' =>
      obtain ⟨rfl, -⟩ := h.cut h' hbefore hbefore' (stops_blank hafter) (stops_blank hafter') hwhole
      exact h.unique h'
termination_by structural h

theorem SpellsItems.unique {s : List Char} {items items' : List Datum} (h : SpellsItems s items)
    (h' : SpellsItems s items') : items = items' := by
  obtain ⟨first, tail, datum, others, hs, rfl, hfirst, hclose, htail⟩ := h'.uncons
  match h with
  | .last h =>
      obtain ⟨rfl, rfl⟩ := h.cut hfirst closes_nil hclose ((List.append_nil _).trans hs)
      obtain ⟨-, rfl⟩ | ⟨_, ⟨⟩, -⟩ := htail
      rw [h.unique hfirst]
  | .more h hrest =>
      obtain ⟨rfl, rfl⟩ := h.cut hfirst (closes_comma _) hclose hs
      obtain ⟨⟨⟩, -⟩ | ⟨_, ⟨⟩, htail⟩ := htail
      rw [h.unique hfirst, hrest.unique htail]
termination_by structural h

theorem SpellsMembers.unique {s : List Char} {members members' : List (List Nat × Datum)} (h : SpellsMembers s members)
    (h' : SpellsMembers s members') : members = members' := by
  obtain ⟨start, first, tail, name, datum, others, hs, rfl, hstart, hfirst, hclose, htail⟩ := h'.uncons
  match h with
  | .last hname h =>
      obtain ⟨rfl, hvalue⟩ := hname.cut hstart hs
      obtain ⟨rfl, rfl⟩ := h.cut hfirst closes_nil hclose ((List.append_nil _).trans hvalue)
      obtain ⟨-, rfl⟩ | ⟨_, ⟨⟩, -⟩ := htail
      rw [h.unique hfirst]
  | .more hname h hrest =>
      obtain ⟨rfl, hvalue⟩ := hname.cut hstart hs
      obtain ⟨rfl, rfl⟩ := h.cut hfirst (closes_comma _) hclose hvalue
      obtain ⟨⟨⟩, -⟩ | ⟨_, ⟨⟩, htail⟩ := htail
      rw [h.unique hfirst, hrest.unique htail]
termination_by structural h

end

end HangulScript.Json
