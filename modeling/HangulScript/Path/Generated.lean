import HangulScript.Path.Basic

/-!
# Names of generated files

The TypeScript of a source goes next to it, or into a chosen directory under the source's stem.
-/

namespace HangulScript.Path

/-- The extension of TypeScript files. -/
def typeScriptExtension : List Char := "ts".toList

/-- Where the TypeScript of `input` goes. Without a file name the whole path serves as stem. -/
def generated (input : Path) : Option Path → Path
  | none => input.withExtension typeScriptExtension
  | some directory =>
    directory.join ((input.stem?.getD input.text) ++ '.' :: typeScriptExtension)

/-- The name under which the TypeScript of a source is checked. -/
def checkedName (source : List Char) : List Char :=
  if source = [] then "input.ts".toList
  else ((⟨source⟩ : Path).withExtension typeScriptExtension).text

end HangulScript.Path
