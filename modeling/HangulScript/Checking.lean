import HangulScript.Diagnostic.Report
import HangulScript.Path.Generated
import HangulScript.Conversion.ToTypeScript

/-!
# Checking sources

A source is converted, and what a reader of TypeScript finds wrong with the result becomes a report.
-/

namespace HangulScript

/-- A reader of TypeScript modules that reports what is wrong with them. -/
abbrev Inspector := List Char → List Finding

/-- The diagnostics of a TypeScript text. -/
def diagnose (inspect : Inspector) (text file : List Char) : Except Abort (List Diagnostic) :=
  (inspect text).mapM (Diagnostic.ofFinding text file)

/-- A checked source: how it was converted, and what was found in the result. -/
structure Checked where
  conversion : Conversion
  report : Report

/-- Converts a source and checks the result under a name made from the source's. -/
def Checked.ofSource (inspect : Inspector) (source name : List Char) : Except Abort Checked := do
  let done ← convert {} source
  let file := Path.checkedName name
  return ⟨done, file, done.text, ← diagnose inspect done.text file⟩

end HangulScript
