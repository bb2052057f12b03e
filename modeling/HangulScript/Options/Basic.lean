/-!
# Options

Which of the two passes run, and how the choice is written.
-/

namespace HangulScript

/-- The passes that run. Both do unless one is switched off. -/
structure Options where
  keywords : Bool := true
  classMethods : Bool := true
deriving DecidableEq, Repr

namespace Options

/-- The names under which the two choices are written. -/
inductive Field
  | keywords
  | classMethods
deriving DecidableEq, Repr

def Field.name : Field → List Char
  | keywords => "keywords".toList
  | classMethods => "class_methods".toList

def Field.ofName? (name : List Char) : Option Field :=
  if name = Field.keywords.name then some .keywords
  else if name = Field.classMethods.name then some .classMethods
  else none

/-- The spelling of a choice. -/
def boolText (b : Bool) : List Char :=
  if b then "true".toList else "false".toList

def memberText (field : Field) (b : Bool) : List Char :=
  '"' :: field.name ++ '"' :: ':' :: boolText b

/-- The options as the text of a JSON object. -/
def toText (options : Options) : List Char :=
  '{' :: memberText .keywords options.keywords ++
    ',' :: memberText .classMethods options.classMethods ++ ['}']

/-- No pass is switched off. -/
def isDefault (options : Options) : Bool :=
  options = {}

end Options

end HangulScript
