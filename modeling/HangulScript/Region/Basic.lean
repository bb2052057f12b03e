/-!
# Lexical regions

What a place in a text belongs to: code, a string, template text, a hole of a template or a
comment. Strings, templates and comments are opened by their delimiters where code stands.
-/

namespace HangulScript

/-- What the text at a place is. -/
inductive Region
  | code
  | singleQuoted
  | doubleQuoted
  | template
  /-- Code between the braces of a hole; the count of braces still open, its own included. -/
  | hole (depth : Nat)
  | lineComment
  | blockComment
deriving DecidableEq, Repr

namespace Region

/-- The largest count of open braces that a hole can hold. -/
def maxHoleDepth : Nat := 4294967295

/-- Keywords count in this region. -/
def holdsCode : Region → Bool
  | code | hole _ => true
  | _ => false

/-- The region opened by the delimiter that the text begins with, and the delimiter's length. -/
def opened? : List Char → Option (Region × Nat)
  | '"' :: _ => some (doubleQuoted, 1)
  | '\'' :: _ => some (singleQuoted, 1)
  | '`' :: _ => some (template, 1)
  | '/' :: '/' :: _ => some (lineComment, 2)
  | '/' :: '*' :: _ => some (blockComment, 2)
  | _ => none

/-- The count of open braces stays within its bound. -/
def fits : Region → Bool
  | hole depth => depth ≤ maxHoleDepth
  | _ => true

/-- The name of the region in messages. -/
def describe : Region → String
  | code => "Code"
  | singleQuoted => "SingleQuote"
  | doubleQuoted => "DoubleQuote"
  | template => "Template"
  | hole depth =>
    "TemplateHole(TemplateExpressionFrame \x7b depth: " ++ toString depth ++ " \x7d)"
  | lineComment => "LineComment"
  | blockComment => "BlockComment"

/-- An opened region is no code, and its delimiter is there to be read. -/
theorem opened?_eq_some {text : List Char} {region : Region} {n : Nat}
    (h : opened? text = some (region, n)) :
    region.holdsCode = false ∧ 0 < n ∧ n ≤ text.length := by
  revert h
  fun_cases opened? text <;> simp only [Option.some.injEq, Prod.mk.injEq, reduceCtorEq,
    false_implies, and_imp]
  all_goals
    rintro rfl rfl
    simp [holdsCode]

end Region

end HangulScript
