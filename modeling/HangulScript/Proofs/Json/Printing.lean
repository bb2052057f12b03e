import Mathlib.Data.List.Basic
import HangulScript.Json.Value
import HangulScript.Proofs.Json.Unambiguity

/-!
# Printing

The text of a value is JSON and says what the value holds and nothing else, at every level of nesting.
-/

namespace HangulScript.Json

open Text

namespace Value

mutual

/-- What a value holds. -/
def datum : Value → Datum
  | number n => .number n
  | string text => .string (units text)
  | array items => .array (itemData items)
  | object members => .object (memberData members)

def itemData : List Value → List Datum
  | [] => []
  | item :: rest => item.datum :: itemData rest

def memberData : List (List Char × Value) → List (List Nat × Datum)
  | [] => []
  | (name, value) :: rest => (units name, value.datum) :: memberData rest

end

theorem itemData_eq_map (items : List Value) : itemData items = items.map datum := by
  induction items with
  | nil => rfl
  | cons item rest ih => rw [itemData, ih, List.map_cons]

end Value

/-! ## Numbers -/

theorem head?_decimal {n : Nat} (h : (decimal n).head? = some '0') : n = 0 := by
  induction n using Nat.strongRecOn with
  | ind n ih =>
      by_cases hlt : n < 10
      · rw [decimal, Nat.toDigits_of_lt_base hlt, List.head?_cons, Option.some.injEq] at h
        exact (show ∀ n < 10, Nat.digitChar n = '0' → n = 0 by decide) n hlt h
      · rw [decimal, Nat.toDigits_of_base_le (by decide) (Nat.le_of_not_lt hlt),
          List.head?_append_of_ne_nil _ Nat.toDigits_ne_nil] at h
        have := ih (n / 10) (by omega) h
        omega

theorem isWhole_decimal (n : Nat) : IsWhole (decimal n) where
  ne_nil := decimal_ne_nil n
  digit _ hc := Nat.isDigit_of_mem_toDigits (by decide) (by decide) hc
  zero h := by
    obtain rfl := head?_decimal h
    rfl

theorem spellsScalar_decimal (n : Nat) : SpellsScalar (decimal n) (.number n) := by
  have hnumeral := SpellsNumeral.intro (isWhole_decimal n) .none .none
  rw [List.append_nil, List.append_nil] at hnumeral
  have hvalue : (Numeral.mk (decimal n) [] false []).value = n := by
    simp [Numeral.value, decimal]
  rw [← hvalue]
  exact .number hnumeral

/-! ## Strings -/

theorem SpellsUnits.escapeChar_append {s : List Char} {rest : List Nat} (h : SpellsUnits s rest) (c : Char) :
    SpellsUnits (escapeChar c ++ s) (charUnits c ++ rest) := by
  fun_cases escapeChar c with
  | case1 | case2 | case3 | case4 | case5 | case6 | case7 => exact .escape (by decide) h
  | case8 c _ _ _ _ _ _ _ hcontrol =>
      have hdigit : ∀ n < 16, IsHexDigit (hexDigit n) n := fun n hn => ⟨hn, Or.inl rfl⟩
      have hcode := SpellsUnits.code (hdigit 0 (by decide)) (hdigit 0 (by decide)) (hdigit (c.toNat / 16) (by omega))
        (hdigit (c.toNat % 16) (by omega)) h
      have hunit : ((0 * 16 + 0) * 16 + c.toNat / 16) * 16 + c.toNat % 16 = c.toNat := by omega
      rw [hunit] at hcode
      rw [charUnits_basic (by omega)]
      exact hcode
  | case9 c hquote hescape _ _ _ _ _ hcontrol => exact .char hquote hescape (Nat.le_of_not_lt hcontrol) h

theorem spellsUnits_escaped (text : List Char) : SpellsUnits (text.flatMap escapeChar) (units text) := by
  induction text with
  | nil => exact .nil
  | cons c text ih => exact ih.escapeChar_append c

theorem spellsUnits_of_unescaped {text : List Char} (h : text.flatMap escapeChar = text) :
    SpellsUnits text (units text) := by
  have hescaped := spellsUnits_escaped text
  rwa [h] at hescaped

/-! ## Values -/

theorem isBlank_newline (level : Nat) : IsBlank (newline level) := by
  simp [newline, IsBlank]

theorem spellsName_quoted (level : Nat) (name : List Char) :
    SpellsName (newline level ++ (quoted name ++ [':'])) (units name) := by
  have hname := @SpellsName.intro _ _ [] _ (isBlank_newline level) (spellsUnits_escaped name) isBlank_nil
  simpa [quoted] using hname

namespace Value

mutual

theorem spellsValue_pretty (level : Nat) (value : Value) : SpellsValue (value.pretty level) value.datum := by
  match value with
  | .number n => exact .scalar (spellsScalar_decimal n)
  | .string text => exact .scalar (.string (spellsUnits_escaped text))
  | .array [] => exact @SpellsValue.emptyArray [] isBlank_nil
  | .array (item :: rest) =>
      exact .array (spellsItems_pretty (level + 1) (isBlank_newline level) (item :: rest) (List.cons_ne_nil _ _))
  | .object [] => exact @SpellsValue.emptyObject [] isBlank_nil
  | .object (member :: rest) =>
      exact .object (spellsMembers_pretty (level + 1) (isBlank_newline level) (member :: rest) (List.cons_ne_nil _ _))

theorem spellsItems_pretty (level : Nat) {after : List Char} (hafter : IsBlank after) (items : List Value)
    (hitems : items ≠ []) : SpellsItems (prettyItems level items ++ after) (itemData items) := by
  match items with
  | [] => exact absurd rfl hitems
  | [item] =>
      rw [prettyItems, List.append_assoc]
      exact .last (.intro (isBlank_newline level) (spellsValue_pretty level item) hafter)
  | item :: next :: rest =>
      have hitem := Spells.intro (isBlank_newline level) (spellsValue_pretty level item) isBlank_nil
      have hmore := SpellsItems.more hitem (spellsItems_pretty level hafter (next :: rest) (List.cons_ne_nil _ _))
      simpa [prettyItems, itemData] using hmore

theorem spellsMembers_pretty (level : Nat) {after : List Char} (hafter : IsBlank after) (members : List (List Char × Value))
    (hmembers : members ≠ []) : SpellsMembers (prettyMembers level members ++ after) (memberData members) := by
  have hspace : IsBlank [' '] := by decide
  match members with
  | [] => exact absurd rfl hmembers
  | [(name, value)] =>
      have hlast := SpellsMembers.last (spellsName_quoted level name)
        (.intro hspace (spellsValue_pretty level value) hafter)
      simpa [prettyMembers, memberData] using hlast
  | (name, value) :: next :: rest =>
      have hvalue := Spells.intro hspace (spellsValue_pretty level value) isBlank_nil
      have hmore := SpellsMembers.more (spellsName_quoted level name) hvalue
        (spellsMembers_pretty level hafter (next :: rest) (List.cons_ne_nil _ _))
      simpa [prettyMembers, memberData] using hmore

end

/-- The text of a value says what the value holds, whatever blanks stand behind it. -/
theorem spells_pretty_iff (level : Nat) (value : Value) {blank : List Char} (hblank : IsBlank blank) (datum : Datum) :
    Spells (value.pretty level ++ blank) datum ↔ datum = value.datum := by
  have hspells : Spells (value.pretty level ++ blank) value.datum :=
    @Spells.intro [] _ _ _ isBlank_nil (spellsValue_pretty level value) hblank
  exact ⟨fun h => h.unique hspells, fun h => h ▸ hspells⟩

end Value

end HangulScript.Json
