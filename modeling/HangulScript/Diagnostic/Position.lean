import HangulScript.Text.Blank
import HangulScript.Text.Cursor
import HangulScript.Text.Width

/-!
# Positions

A byte offset of a text belongs to a line and a display column. A line ends with `\r\n`, `\n` or a
`\r` that stands alone, and no empty line follows the last terminator. `flatten_lines` says that the
lines make up the text.
-/

namespace HangulScript

open Text

/-- The lines of a text, each with its terminator. -/
def lines : List Char → List (List Char)
  | [] => []
  | '\r' :: '\n' :: rest => ['\r', '\n'] :: lines rest
  | c :: rest =>
    if c = '\n' ∨ c = '\r' then [c] :: lines rest
    else match lines rest with
      | [] => [[c]]
      | line :: others => (c :: line) :: others

/-- The columns that a character moves the position on. Characters beyond the basic plane take one
more than they show. -/
def columnWeight (c : Char) : Nat :=
  if c = '\t' then 4
  else if c = '\n' ∨ c = '\r' then 1
  else if c.toNat < 0x20 ∨ (0x7F ≤ c.toNat ∧ c.toNat < 0xA0) then 0
  else displayWidth c + (if 0x10000 ≤ c.toNat then 1 else 0)

/-- The columns of the characters that begin before a byte offset of a line. -/
def columnsBefore : List Char → Nat → Nat
  | [], _ => 0
  | c :: rest, offset =>
    if offset = 0 then 0 else columnWeight c + columnsBefore rest (offset - c.utf8Size)

/-- Where an offset lies, and the line to show for it. -/
structure Position where
  /-- Counted from one. -/
  line : Nat
  /-- Counted from one. -/
  column : Nat
  sourceLine : List Char
deriving DecidableEq, Repr

/-- What is shown of a text that begins with a line: up to the newline, without the blanks there. -/
def shownLine (text : List Char) : List Char :=
  trimRight (text.takeWhile (· ≠ '\n'))

/-- The position of an offset in the given lines, the first of which has the given number. An offset
at the end of the text belongs to the last line. -/
def locateIn (number : Nat) : List (List Char) → Nat → Option Position
  | [], _ => none
  | line :: rest, offset =>
    if offset < byteLength line ∨ rest = [] then
      some ⟨number, 1 + columnsBefore line offset, shownLine (line :: rest).flatten⟩
    else locateIn (number + 1) rest (offset - byteLength line)

/-- The text without a byte-order mark at its beginning. -/
def Text.dropMark : List Char → List Char
  | '\uFEFF' :: rest => rest
  | text => text

/-- The position of an offset of a text; an empty text has none. -/
def locate? (text : List Char) (offset : Nat) : Option Position :=
  locateIn 1 (lines text) offset

theorem flatten_lines (text : List Char) : (lines text).flatten = text := by
  fun_induction lines text with
  | case1 => rfl
  | case2 rest ih => simp [ih]
  | case3 c rest _ hend ih => simp [ih]
  | case4 c rest _ hend hnil ih => simpa [hnil] using ih
  | case5 c rest _ hend line others hlines ih => simpa [hlines] using ih

theorem locateIn_eq_none_iff {number : Nat} {ls : List (List Char)} {offset : Nat} :
    locateIn number ls offset = none ↔ ls = [] := by
  fun_induction locateIn number ls offset with
  | case1 => simp
  | case2 => simp
  | case3 number line rest offset h ih => simp [ih, (not_or.1 h).2]

/-- Only the empty text has no locations. -/
theorem locate?_eq_none_iff {text : List Char} {offset : Nat} :
    locate? text offset = none ↔ text = [] := by
  rw [locate?, locateIn_eq_none_iff]
  refine ⟨fun h => ?_, fun h => by rw [h]; rfl⟩
  have := flatten_lines text
  rw [h] at this
  simpa using this.symm

end HangulScript
