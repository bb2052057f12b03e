import HangulScript.Text.Alphanumeric
import HangulScript.Text.Cursor

/-!
# Identifiers and words

Letters and digits of every script, `_` and `$` can stand in an identifier. A word stands alone
where no such character touches it on either side.
-/

namespace HangulScript.Text

/-- `c` can stand in an identifier. -/
def isNameChar (c : Char) : Bool :=
  isAlphanumeric c || c == '_' || c == '$'

namespace Cursor

/-- No identifier reaches the place from the left. -/
def freeBefore (place : Cursor) : Bool :=
  !place.before.any isNameChar

/-- No identifier goes on at the place. -/
def freeAfter (place : Cursor) : Bool :=
  !place.rest.head?.any isNameChar

/-- The text at the place begins with `word`, and no identifier character touches it. -/
def holdsWord (place : Cursor) (word : List Char) : Bool :=
  word.isPrefixOf place.rest && place.freeBefore && (place.advance word.length).freeAfter

theorem holdsWord_iff {place : Cursor} {word : List Char} :
    place.holdsWord word = true ↔
      word <+: place.rest ∧ place.freeBefore = true ∧
        (place.advance word.length).freeAfter = true := by
  simp [holdsWord, and_assoc]

end Cursor

end HangulScript.Text
