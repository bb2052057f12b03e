/-!
# Findings

What is wrong with a text, and where.
-/

namespace HangulScript

/-- A message and the byte offset of the place that it is about, unless it is about none. -/
structure Finding where
  message : List Char
  offset : Option Nat
deriving DecidableEq, Repr

end HangulScript
