import HangulScript.TypeScript.Token

/-!
# Nesting of constructs

What encloses a token of TypeScript: blocks, class bodies, object literals, groups and the bodies of
arrow functions, each with what is allowed in it and what the construct at hand still waits for.
-/

namespace HangulScript.TypeScript

/-- What is allowed at a place. -/
structure Scope where
  inFunction : Bool
  mayAwait : Bool
  mayBreak : Bool
deriving DecidableEq, Repr

/-- The scope of a function's body. -/
def Scope.function (isAsync : Bool) : Scope :=
  ⟨true, isAsync, false⟩

/-- What the tokens of a frame are. -/
inductive FrameKind
  | statements
  | classBody
  /-- The members of an object literal, a pattern or a type. -/
  | members
  /-- Expressions between parentheses, square brackets or the braces of a hole. -/
  | group
  /-- The body of an arrow function that is an expression. -/
  | arrow
deriving DecidableEq, Repr

/-- What opened a frame. -/
inductive Opening
  | text
  | brace
  | paren
  | square
  | hole
  | arrow
deriving DecidableEq, Repr

/-- What closes the frame; none for those that no character closes. -/
def Opening.closing? : Opening → Option (List Char)
  | brace | hole => some ['}']
  | paren => some [')']
  | square => some [']']
  | text | arrow => none

/-- The body that a control word has. -/
inductive Body
  | plain
  | loop
  | switch
deriving DecidableEq, Repr

/-- What the construct at hand waits for. -/
inductive Ahead
  | nothing
  /-- The parentheses after a control word. -/
  | header (body : Body)
  /-- The statement or block after a control word. -/
  | body (body : Body)
  /-- The body of a function, after its parameters when they have been read. -/
  | function (isAsync paramsRead : Bool)
  /-- The block of an arrow function. -/
  | arrowBlock (isAsync : Bool)
  /-- The body of a class, with the angle brackets open in its head. -/
  | classHead (angles : Nat)
  /-- The members of an interface or an enumeration. -/
  | memberList
  /-- The type of an alias. -/
  | typeAlias
deriving DecidableEq, Repr

/-- How far a declaration of constants has come. `first` marks the name right after the word. -/
inductive ConstState
  | nothing
  | nameWanted (first : Bool)
  /-- A name without a value so far. -/
  | named (offset : Nat) (first : Bool)
  /-- A name with a type, and the angle brackets open in the type. -/
  | typed (offset : Nat) (angles : Nat)
  | valued
deriving DecidableEq, Repr

/-- One enclosing construct. -/
structure Frame where
  opening : Opening
  kind : FrameKind
  scope : Scope
  /-- Constants need no value here. -/
  ambient : Bool := false
  /-- The closing brace ends the statement or member around the frame. -/
  endsOuter : Bool := false
  ahead : Ahead := .nothing
  consts : ConstState := .nothing
  /-- A statement or member begins at the next token. -/
  atStart : Bool := true
  /-- The word `async` belongs to the function or method that comes. -/
  asyncAhead : Bool := false
  /-- The word `declare` belongs to the declaration that comes. -/
  ambientAhead : Bool := false
  /-- The statement at hand is the body of a loop or has a label. -/
  loopBody : Bool := false
  /-- The member at hand has come to its value. -/
  inValue : Bool := false
  /-- The next colon ends a label or a case. -/
  labelAhead : Bool := false
  /-- The question marks that wait for their colon. -/
  questions : Nat := 0
deriving DecidableEq, Repr

namespace Frame

/-- The frame of a whole module. -/
def module : Frame :=
  { opening := .text, kind := .statements, scope := ⟨false, true, false⟩ }

/-- The frame at the beginning of its next statement or member. -/
def fresh (frame : Frame) : Frame :=
  { frame with
    ahead := .nothing, consts := .nothing, atStart := true, asyncAhead := false
    ambientAhead := false, loopBody := false, inValue := false, labelAhead := false
    questions := 0 }

/-- A break may stand in the statement at hand. -/
def breakable (frame : Frame) : Bool :=
  frame.scope.mayBreak || frame.loopBody

end Frame

/-- After the token a brace opens a type or an object, not a body. -/
def Token.continuesType (token : Token) : Bool :=
  match token.kind with
  | .operator => [":", "|", "&", "<", ",", "=>", "=", "(", "[", "?"].contains token.text
  | .word =>
    ["extends", "implements", "is", "keyof", "typeof", "infer", "readonly"].contains token.text
  | _ => false

/-- Opens a block of statements. -/
def Frame.block (outer : Frame) (body : Body) : Frame :=
  { opening := .brace, kind := .statements
    scope := { outer.scope with mayBreak := outer.breakable || body != .plain }
    ambient := outer.ambient || outer.ambientAhead, endsOuter := true }

/-- Opens the body of a function. -/
def Frame.functionBody (isAsync endsOuter : Bool) : Frame :=
  { opening := .brace, kind := .statements, scope := .function isAsync, endsOuter }

/-- Opens a list of members. -/
def Frame.memberList (outer : Frame) : Frame :=
  { opening := .brace, kind := .members, scope := outer.scope }

/-- Opens a frame of expressions. -/
def Frame.group (outer : Frame) (opening : Opening) : Frame :=
  { opening, kind := .group, scope := outer.scope }

/-- Opens the body of an arrow function that is an expression. -/
def Frame.arrowBody (isAsync : Bool) : Frame :=
  { opening := .arrow, kind := .arrow, scope := .function isAsync }

/-- What a brace opens where no construct waits for it. -/
def Frame.openFree (outer : Frame) (before : Option Token) : Frame :=
  let afterOperand := before.any Token.endsOperand
  match outer.kind with
  | .statements => if outer.atStart || afterOperand then outer.block .plain else outer.memberList
  | .classBody =>
    if outer.inValue || before.any Token.continuesType then outer.memberList
    else if before.any (·.isWord "static") then outer.block .plain
    else .functionBody outer.asyncAhead true
  | .members => if afterOperand then .functionBody outer.asyncAhead false else outer.memberList
  | .group | .arrow => outer.memberList

/-- The frame around a brace after it has been opened, and the frame of the brace. -/
def Frame.enterBrace (outer : Frame) (before : Option Token) : Frame × Frame :=
  let waiting := before.any Token.continuesType
  let done := { outer with ahead := .nothing, atStart := false }
  let inner := { outer with atStart := false }
  match outer.ahead with
  | .header body | .body body => (done, outer.block body)
  | .function isAsync paramsRead =>
    if !paramsRead || waiting then (inner, outer.memberList)
    else ({ done with asyncAhead := false }, .functionBody isAsync false)
  | .arrowBlock isAsync => (done, .functionBody isAsync false)
  | .classHead angles =>
    if 0 < angles || waiting then (inner, outer.memberList)
    else (done, { outer.memberList with kind := .classBody })
  | .memberList => (done, outer.memberList)
  | .typeAlias => (inner, outer.memberList)
  | .nothing =>
    let opened := outer.openFree before
    ({ inner with asyncAhead := inner.asyncAhead && opened.kind != .statements }, opened)

end HangulScript.TypeScript
