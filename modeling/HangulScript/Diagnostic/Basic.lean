import HangulScript.Abort
import HangulScript.Diagnostic.Finding
import HangulScript.Diagnostic.Position
import HangulScript.Json.Value
import HangulScript.Text.Decimal

/-!
# Diagnostics

A finding, put into words for a reader: the file, the position, the message, and a rendering that
shows the line with a caret under the place.
-/

namespace HangulScript

open Text

/-- A finding in a named file. Line and column are zero when the finding has no place. -/
structure Diagnostic where
  file : List Char
  line : Nat
  column : Nat
  message : List Char
  rendered : List Char
deriving DecidableEq, Repr

namespace Diagnostic

/-- The header of a rendering that has no place. -/
def renderPlain (file message : List Char) : List Char :=
  file ++ " - error: ".toList ++ message

/-- The header, an empty line, the line of the place and a caret under it. The margin is as wide as
the line's number. -/
def renderAt (file : List Char) (position : Position) (message : List Char) : List Char :=
  file ++ ':' :: decimal position.line ++ ':' :: decimal position.column ++
    " - error: ".toList ++ message ++ '\n' :: '\n' ::
    decimal position.line ++ " | ".toList ++ position.sourceLine ++ '\n' ::
    List.replicate (decimal position.line).length ' ' ++ " | ".toList ++
    List.replicate (position.column - 1) ' ' ++ ['^']

/-- The diagnostic of a finding in a text. A byte-order mark at the beginning of the text does not
count. -/
def ofFinding (text file : List Char) (finding : Finding) : Except Abort Diagnostic :=
  let message := finding.message
  match finding.offset with
  | none => .ok ⟨file, 0, 0, message, renderPlain file message⟩
  | some offset =>
    match locate? (Text.dropMark text) offset with
    | none => .error .positionInEmptyText
    | some position =>
      .ok ⟨file, position.line, position.column, message, renderAt file position message⟩

/-- The diagnostic as a JSON object. -/
def toJson (diagnostic : Diagnostic) : Json.Value :=
  .object [("file".toList, .string diagnostic.file),
    ("line".toList, .number diagnostic.line),
    ("column".toList, .number diagnostic.column),
    ("message".toList, .string diagnostic.message),
    ("rendered".toList, .string diagnostic.rendered)]

end Diagnostic

end HangulScript
