import HangulScript.Text.Word

/-!
# Rules of a keyword table

A rule says which text is written for a spelling. A table is a list of rules, and the first rule
that matches a place applies there. In an admissible table that is the longest one.
-/

namespace HangulScript

open Text

/-- A spelling and the text that takes its place. -/
structure Rule where
  spelling : List Char
  replacement : List Char
  /-- The spelling counts only where it stands alone. -/
  standsAlone : Bool
  spelling_ne_nil : spelling ≠ []
deriving DecidableEq

namespace Rule

/-- The rule of a spelling that must stand alone. -/
def alone (spelling replacement : String) (h : spelling.toList ≠ [] := by decide) : Rule :=
  ⟨spelling.toList, replacement.toList, true, h⟩

/-- The rule of a spelling that counts inside a longer identifier too. -/
def anywhere (spelling replacement : String) (h : spelling.toList ≠ [] := by decide) : Rule :=
  ⟨spelling.toList, replacement.toList, false, h⟩

/-- The rule applies at the place. -/
def applies (rule : Rule) (place : Cursor) : Bool :=
  rule.spelling.isPrefixOf place.rest &&
    (!rule.standsAlone ||
      (place.freeBefore && (place.advance rule.spelling.length).freeAfter))

theorem applies_iff {rule : Rule} {place : Cursor} :
    rule.applies place = true ↔
      rule.spelling <+: place.rest ∧
        (rule.standsAlone = true → place.freeBefore = true ∧
          (place.advance rule.spelling.length).freeAfter = true) := by
  cases h : rule.standsAlone <;> simp [applies, h]

theorem spelling_prefix {rule : Rule} {place : Cursor} (h : rule.applies place = true) :
    rule.spelling <+: place.rest :=
  (applies_iff.1 h).1

/-- A rule that must stand alone applies where its spelling is a word. -/
theorem applies_eq_holdsWord {rule : Rule} {place : Cursor} (h : rule.standsAlone = true) :
    rule.applies place = place.holdsWord rule.spelling := by
  simp [applies, Cursor.holdsWord, h, Bool.and_assoc]

/-- The first rule of the table that applies at the place. -/
def firstMatch? (table : List Rule) (place : Cursor) : Option Rule :=
  table.find? (·.applies place)

/-- The positions in the table of all rules that apply at the place, in ascending order. -/
def matchIndices (table : List Rule) (place : Cursor) : List Nat :=
  (table.zipIdx.filter fun entry => entry.1.applies place).map (·.2)

/-- An earlier rule does not hide a later one: where the earlier spelling is a proper beginning of
the later one, it must stand alone and the later one goes on with an identifier character. -/
def YieldsTo (earlier later : Rule) : Prop :=
  earlier.spelling ≠ later.spelling ∧
    ∀ c rest, later.spelling = earlier.spelling ++ c :: rest →
      earlier.standsAlone = true ∧ isNameChar c = true

/-- No rule of the table is hidden by an earlier one. -/
def Admissible (table : List Rule) : Prop :=
  table.Pairwise YieldsTo

end Rule

end HangulScript
