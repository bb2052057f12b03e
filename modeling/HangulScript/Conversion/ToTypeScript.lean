import HangulScript.Conversion.Keywords
import HangulScript.Conversion.Methods
import HangulScript.Options.Basic

/-!
# From source to TypeScript

The keywords are replaced first, then `function` is dropped from the methods of the result. Each of
the two passes can be switched off.
-/

namespace HangulScript

/-- What the passes did, and the text that they leave. -/
structure Conversion where
  keywordTrace : Option (Trace OpenRegions)
  methodTrace : Option (Trace Methods.State)
  text : List Char

/-- Runs the passes that the options ask for. -/
def convert (options : Options) (source : List Char) : Except Abort Conversion := do
  let keywordTrace ←
    if options.keywords then some <$> traceKeywords keywordTable source else pure none
  let keyed := (keywordTrace.map Trace.output).getD source
  let methodTrace := if options.classMethods then some (methodPass.run keyed) else none
  return ⟨keywordTrace, methodTrace, (methodTrace.map Trace.output).getD keyed⟩

/-- The TypeScript text of a source. -/
def toTypeScript (source : List Char) : Except Abort (List Char) :=
  (convert {} source).map Conversion.text

/-- With all passes on, the second pass works on the text of the first. -/
theorem toTypeScript_eq (source : List Char) :
    toTypeScript source = (replaceKeywords source).map bareMethods := by
  cases h : traceKeywords keywordTable source <;>
    simp [toTypeScript, convert, replaceKeywords, bareMethods, h, Except.map, Functor.map,
      bind, Except.bind, pure, Except.pure]

end HangulScript
