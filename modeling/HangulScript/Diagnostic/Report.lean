import HangulScript.Diagnostic.Basic

/-!
# Reports

The outcome of checking one source. A list of reports is written as a JSON array, which leaves the
checked texts out.
-/

namespace HangulScript

/-- The diagnostics of one source, with the name and the text that were checked. -/
structure Report where
  file : List Char
  text : List Char
  diagnostics : List Diagnostic
deriving DecidableEq, Repr

namespace Report

def isFaulty (report : Report) : Bool :=
  !report.diagnostics.isEmpty

/-- The renderings of all diagnostics, with an empty line between them. -/
def formatted (report : Report) : List Char :=
  List.intercalate ['\n', '\n'] (report.diagnostics.map Diagnostic.rendered)

/-- The report as a JSON object. -/
def toJson (report : Report) : Json.Value :=
  .object [("file".toList, .string report.file),
    ("diagnostics".toList, .array (report.diagnostics.map Diagnostic.toJson))]

/-- The text of a JSON array of reports. -/
def pretty (reports : List Report) : List Char :=
  (Json.Value.array (reports.map toJson)).pretty 0

end Report

end HangulScript
