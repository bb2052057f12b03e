/-!
# Problems of a module

What can be wrong with a module, and how it is put into words.
-/

namespace HangulScript

/-- What is wrong. -/
inductive Problem
  | expected (wanted got : List Char)
  | expressionExpected
  | nameExpected
  | constWithoutValue
  | returnOutsideFunction
  | awaitInPlainFunction
  | lineBreakAfterThrow
  | breakOutsideLoop
  | legacyDecimal
  | unterminatedString
  | unterminatedTemplate
  | unterminatedComment
deriving DecidableEq, Repr

/-- The message of a problem. -/
def Problem.message : Problem → List Char
  | expected wanted got =>
    "Expected '".toList ++ wanted ++ "', got '".toList ++ got ++ "'".toList
  | expressionExpected => "Expression expected".toList
  | nameExpected => "Expected ident".toList
  | constWithoutValue => "'const' declarations must be initialized".toList
  | returnOutsideFunction => "Return statement is not allowed here".toList
  | awaitInPlainFunction => "await isn't allowed in non-async function".toList
  | lineBreakAfterThrow => "LineBreak cannot follow 'throw'".toList
  | breakOutsideLoop =>
    ("A 'break' statement can only be used within an enclosing iteration or switch " ++
      "statement").toList
  | legacyDecimal => "Legacy decimal escape is not permitted in strict mode".toList
  | unterminatedString => "Unterminated string constant".toList
  | unterminatedTemplate => "Unterminated template".toList
  | unterminatedComment => "Unterminated block comment".toList

/-- A problem stands for its message where a message is asked for. -/
instance : Coe Problem (List Char) :=
  ⟨Problem.message⟩

end HangulScript
