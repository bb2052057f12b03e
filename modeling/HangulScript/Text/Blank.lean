import HangulScript.Text.CodeRange

/-!
# Blank characters

The characters with the property White_Space, and the removal of the blanks that end a text.
-/

namespace HangulScript.Text

/-- The code points with the property White_Space, in ascending order. -/
def blankRanges : List CodeRange := [
  ⟨0x0009, 0x000D⟩, ⟨0x0020, 0x0020⟩, ⟨0x0085, 0x0085⟩, ⟨0x00A0, 0x00A0⟩, ⟨0x1680, 0x1680⟩,
  ⟨0x2000, 0x200A⟩, ⟨0x2028, 0x2029⟩, ⟨0x202F, 0x202F⟩, ⟨0x205F, 0x205F⟩, ⟨0x3000, 0x3000⟩]

/-- `c` is white space in some script. -/
def isBlank (c : Char) : Bool :=
  CodeRange.contains blankRanges c

/-- The text without the blanks at its end. -/
def trimRight (text : List Char) : List Char :=
  (text.reverse.dropWhile isBlank).reverse

theorem trimRight_prefix (text : List Char) : trimRight text <+: text := by
  have h := List.dropWhile_suffix (l := text.reverse) isBlank
  simpa [trimRight] using List.reverse_prefix.2 h

end HangulScript.Text
