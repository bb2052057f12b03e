import HangulScript.Diagnostic.Position
import HangulScript.TypeScript.Nesting

/-!
# Findings in TypeScript

Reads the tokens of a module once and reports what stands where it must not. Some findings end the
reading; after the others it goes on. Nothing is reported of a valid module.
-/

namespace HangulScript.TypeScript

open Text

/-- Where the reading stands. -/
structure Reading where
  /-- The innermost frame. -/
  top : Frame
  /-- The frames around it, from the inside outwards. -/
  outer : List Frame
  before : Option Token
  /-- The findings so far, the last one first. -/
  found : List Finding
  /-- A finding has ended the reading. -/
  ended : Bool

namespace Reading

def start : Reading :=
  ⟨.module, [], none, [], false⟩

/-- Reports a finding and goes on. -/
def report (r : Reading) (problem : Problem) (offset : Nat) : Reading :=
  { r with found := ⟨problem, some offset⟩ :: r.found }

/-- Reports a finding that ends the reading. -/
def stop (r : Reading) (problem : Problem) (offset : Nat) : Reading :=
  { r.report problem offset with ended := true }

/-- Changes the innermost frame. -/
def inTop (r : Reading) (change : Frame → Frame) : Reading :=
  { r with top := change r.top }

def push (r : Reading) (frame : Frame) : Reading :=
  { r with top := frame, outer := r.top :: r.outer }

/-- Removes the innermost frame; the module stays. -/
def pop (r : Reading) : Reading :=
  match r.outer with
  | [] => r
  | frame :: outer => { r with top := frame, outer }

/-! ## Statements -/

/-- Reports a constant whose declaration ends without a value. -/
def endConst (r : Reading) : Reading :=
  match r.top.consts with
  | .named offset _ | .typed offset _ => r.report .constWithoutValue offset
  | _ => r

/-- Ends the statement or member at hand. -/
def endStatement (r : Reading) : Reading :=
  r.endConst.inTop .fresh

/-- The frames without the arrow functions that end before the next token. -/
def withoutArrows (top : Frame) : List Frame → Frame × List Frame
  | [] => (top, [])
  | frame :: outer => if top.kind = .arrow then withoutArrows frame outer else (top, frame :: outer)

/-- Ends the arrow functions whose bodies are expressions. -/
def endArrows (r : Reading) : Reading :=
  let (top, outer) := withoutArrows r.top r.outer
  { r with top, outer }

/-- Words that cannot begin a statement on a new line. -/
def continuingWords : List String :=
  ["in", "instanceof", "of", "as", "satisfies", "is", "extends", "implements", "else", "catch",
    "finally"]

/-- Words that begin a statement wherever they stand on a new line. -/
def statementWords : List String :=
  ["const", "let", "var", "return", "if", "for", "while", "do", "switch", "throw", "try", "break",
    "continue", "export", "enum", "interface"]

/-- The end of the line before the token ends a statement. -/
def lineEndsStatement (before : Option Token) (token : Token) : Bool :=
  token.afterNewline &&
    match token.kind with
    | .word =>
      statementWords.contains token.text ||
        (before.any Token.endsOperand && !continuingWords.contains token.text)
    | .number _ | .string => before.any Token.endsOperand
    | .operator => before.any Token.endsOperand && ["@", "++", "--", "~"].contains token.text
    | _ => false

/-- Lets a line end do its part before the token. -/
def crossLine (r : Reading) (token : Token) : Reading :=
  if lineEndsStatement r.before token then
    let r := r.endArrows
    match r.top.kind, r.top.ahead with
    | _, .header _ | _, .body _ => r
    | .statements, _ | .classBody, _ => r.endStatement
    | _, _ => r
  else r

/-- Begins the body of a control word that is no block. -/
def enterBody (r : Reading) (token : Token) : Reading :=
  match r.top.ahead with
  | .body body =>
    if token.isOperator "\x7b" then r
    else r.inTop fun top =>
      { top with ahead := .nothing, loopBody := top.loopBody || body == .loop, atStart := true }
  | _ => r

/-! ## Operands -/

/-- Operators that need an operand after them wherever they stand. -/
def openEndedOperators : List String :=
  ["=", "+=", "-=", "*=", "/=", "%=", "**=", "<<=", ">>=", ">>>=", "&=", "|=", "^=", "&&=", "||=",
    "??=", "+", "-", "*", "/", "%", "**", "==", "===", "!=", "!==", "<", "<=", ">=", "&&", "||",
    "??", "&", "|", "^", "<<", "=>"]

/-- No operand begins with the token. -/
def closesOperand (token : Token) : Bool :=
  match token.kind with
  | .holeNext | .holeClose => true
  | .operator => [";", ")", "]", "\x7d", ","].contains token.text
  | _ => false

/-- An operand is missing before the token. -/
def lacksOperand (before : Option Token) (token : Token) : Bool :=
  closesOperand token && before.any fun b =>
    b.kind == .operator && openEndedOperators.contains b.text

/-! ## Constants -/

/-- Follows the declaration of constants through a token of its own level. -/
def followConst (r : Reading) (token : Token) : Reading :=
  let become (state : ConstState) := r.inTop fun top => { top with consts := state }
  match r.top.consts with
  | .nothing => r
  | .nameWanted first =>
    if token.kind = .word then
      if token.isWord "enum" ∧ first then become .nothing
      else if reservedWords.contains token.text ∧ first then r.stop .nameExpected token.offset
      else become (.named token.offset first)
    else become .valued
  | .named offset first =>
    if token.isOperator ":" ∧ first then become (.typed offset 0)
    else if token.isOperator "," ∧ first then
      (r.report .constWithoutValue offset).inTop fun top => { top with consts := .nameWanted false }
    else if token.isOperator ";" ∨ token.isOperator "\x7d" then r
    else if token.isOperator "," then become (.nameWanted false)
    else become .valued
  | .typed offset angles =>
    if token.isOperator "=" ∧ angles = 0 then become .valued
    else if token.isOperator "," ∧ angles = 0 then
      (r.report .constWithoutValue offset).inTop fun top => { top with consts := .nameWanted false }
    else if token.isOperator "<" then become (.typed offset (angles + 1))
    else if token.kind = .operator ∧ token.text.all (· = '>') then
      become (.typed offset (angles - token.text.length))
    else r
  | .valued => if token.isOperator "," then become (.nameWanted false) else r

/-! ## Words -/

/-- The word names a member and has no meaning of its own. -/
def namesMember (r : Reading) (next : Option Token) : Bool :=
  r.before.any (fun b => b.isOperator "." || b.isOperator "?.") ||
    match r.top.kind with
    | .members => !r.top.inValue && (r.before.isNone || r.before.any fun b =>
        b.isOperator "," || b.isOperator "\x7b" || b.isOperator ";") &&
        next.any fun n => n.isOperator ":" || n.isOperator "(" || n.isOperator ","
    | .classBody => !r.top.inValue && next.any fun n =>
        n.isOperator "(" || n.isOperator ":" || n.isOperator "=" || n.isOperator ";"
    | _ => false

/-- The next token stands on the same line and can follow `async` at the head of a function. -/
def startsAsync (next : Option Token) : Bool :=
  next.any fun n => !n.afterNewline &&
    match n.kind with
    | .word | .string | .number _ => true
    | .operator => ["(", "<", "[", "*"].contains n.text
    | _ => false

/-- The next token is a name on the same line. -/
def nameFollows (next : Option Token) : Bool :=
  next.any fun n => n.kind == .word && !n.afterNewline && !continuingWords.contains n.text

/-- Words that mean the same in every expression. -/
def expressionWord (r : Reading) (token : Token) (next : Option Token) : Reading :=
  match token.text with
  | "function" => r.inTop fun top =>
      { top with ahead := .function top.asyncAhead false, asyncAhead := false }
  | "class" => r.inTop fun top => { top with ahead := .classHead 0 }
  | "async" => if startsAsync next then r.inTop fun top => { top with asyncAhead := true } else r
  | "await" =>
    if r.top.scope.mayAwait || r.before.any (·.isWord "for") then r
    else r.report .awaitInPlainFunction token.offset
  | _ => r

/-- Waits for what follows a control word. -/
def expect (r : Reading) (ahead : Ahead) : Reading :=
  r.inTop fun top => { top with ahead }

/-- Words that begin or continue statements. -/
def statementWord (r : Reading) (token : Token) (next : Option Token) : Reading :=
  match token.text with
  | "return" => if r.top.scope.inFunction then r else r.report .returnOutsideFunction token.offset
  | "break" =>
    if r.top.breakable || nameFollows next then r else r.report .breakOutsideLoop token.offset
  | "throw" =>
    match next with
    | some n =>
      if n.afterNewline then r.stop .lineBreakAfterThrow n.offset
      else if n.isOperator ";" then r.stop .expressionExpected n.offset
      else r
    | none => r
  | "const" =>
    if r.top.ambient || r.top.ambientAhead then r
    else r.inTop fun top => { top with consts := .nameWanted true }
  | "var" =>
    match next with
    | some n =>
      if n.kind = .word ∧ reservedWords.contains n.text then r.stop .nameExpected n.offset else r
    | none => r
  | "for" | "while" => r.expect (.header .loop)
  | "switch" => r.expect (.header .switch)
  | "if" | "with" | "catch" => r.expect (.header .plain)
  | "do" => r.expect (.body .loop)
  | "else" | "try" | "finally" => r.expect (.body .plain)
  | "case" | "default" => r.inTop fun top => { top with labelAhead := true }
  | "interface" => if nameFollows next then r.expect .memberList else r
  | "enum" => r.expect .memberList
  | "type" => if nameFollows next then r.expect .typeAlias else r
  | "declare" =>
    if nameFollows next then r.inTop fun top => { top with ambientAhead := true } else r
  | _ => r.expressionWord token next

/-- Takes a word in. -/
def word (r : Reading) (token : Token) (next : Option Token) : Reading :=
  let label := r.top.atStart && next.any (·.isOperator ":")
  let done := r.inTop fun top =>
    { top with
      atStart := false, labelAhead := top.labelAhead || (label && top.kind == .statements) }
  if r.namesMember next then done
  else if r.top.kind = .statements then done.statementWord token next
  else done.expressionWord token next

/-! ## Brackets -/

/-- Opens a brace. -/
def enterBrace (r : Reading) : Reading :=
  let (outer, inner) := r.top.enterBrace r.before
  { r with top := inner, outer := outer :: r.outer }

/-- What the end of an inner frame does to the one around it. -/
def afterClosing (closed : Frame) (next : Option Token) (outer : Frame) : Frame :=
  match closed.opening with
  | .brace =>
    if !closed.endsOuter then outer
    else if next.any fun n => n.isWord "else" || n.isWord "catch" || n.isWord "finally" then
      { outer with atStart := true }
    else outer.fresh
  | .paren =>
    match outer.ahead with
    | .header body => { outer with ahead := .body body, atStart := true }
    | .function isAsync false => { outer with ahead := .function isAsync true }
    | _ => outer
  | _ => outer

/-- Closes the innermost bracket, which must be of the given kind. -/
def close (r : Reading) (opening : Opening) (token : Token) (next : Option Token) : Reading :=
  let r := r.endArrows
  if r.top.opening = opening ∧ r.outer ≠ [] then
    let closed := r.top
    (r.endConst.pop).inTop (afterClosing closed next)
  else r.stop .expressionExpected token.offset

/-! ## Operators -/

/-- Takes `=>` in: an arrow function begins, unless the arrow belongs to a type. -/
def arrow (r : Reading) (next : Option Token) : Reading :=
  let inType :=
    match r.top.kind, r.top.ahead, r.top.consts with
    | .classBody, _, _ => !r.top.inValue
    | _, .function _ true, _ | _, .typeAlias, _ | _, _, .typed _ _ => true
    | _, _, _ => false
  if inType then r
  else
    let isAsync := r.top.asyncAhead
    let done := r.inTop fun top => { top with asyncAhead := false }
    if next.any (·.isOperator "\x7b") then done.expect (.arrowBlock isAsync)
    else done.push (.arrowBody isAsync)

/-- Takes a colon in: it ends a label or a case, which a break may leave, the name of a member, or
the middle of a choice. -/
def colon (r : Reading) : Reading :=
  let r := if r.top.kind = .arrow ∧ r.top.questions = 0 then r.endArrows else r
  r.inTop fun top =>
    if top.kind = .statements ∧ top.labelAhead then
      { top with labelAhead := false, atStart := true, loopBody := true }
    else if top.kind = .members then { top with inValue := true }
    else { top with questions := top.questions - 1 }

/-- Takes a comma in. -/
def comma (r : Reading) : Reading :=
  r.inTop fun top => if top.kind = .members then top.fresh else top

/-- Takes a semicolon in. -/
def semicolon (r : Reading) (next : Option Token) : Reading :=
  if r.top.kind = .group then r
  else if next.any (·.isWord "else") then
    r.endConst.inTop fun top => { top.fresh with loopBody := top.loopBody }
  else r.endStatement

/-- Counts an angle bracket in the head of a class. -/
def angle (r : Reading) (change : Nat → Nat) : Reading :=
  match r.top.ahead with
  | .classHead angles => r.expect (.classHead (change angles))
  | _ => r

/-- Takes an operator in. -/
def operator (r : Reading) (token : Token) (next : Option Token) : Reading :=
  let r := if token.text = ";" ∨ token.text = "," then r.endArrows else r
  let r := if token.isOperator "\x7b" then r else r.followConst token
  let inner := r.inTop fun top => { top with atStart := false }
  match token.text with
  | "\x7b" => r.enterBrace
  | "\x7d" => r.close .brace token next
  | "(" => inner.push (r.top.group .paren)
  | "[" => inner.push (r.top.group .square)
  | ")" => r.close .paren token next
  | "]" => r.close .square token next
  | ";" => r.semicolon next
  | "," => inner.comma
  | ":" => inner.colon
  | "?" => inner.inTop fun top => { top with questions := top.questions + 1 }
  | "=" => inner.inTop fun top => { top with inValue := true }
  | "=>" => inner.arrow next
  | "<" => inner.angle (· + 1)
  | ">" => inner.angle (· - 1)
  | ">>" => inner.angle (· - 2)
  | ">>>" => inner.angle (· - 3)
  | _ => inner

/-! ## Tokens -/

/-- Takes a token in, given the one after it. -/
def take (r : Reading) (token : Token) (next : Option Token) : Reading :=
  let inner := r.inTop fun top => { top with atStart := false }
  match token.kind with
  | .word =>
    let followed := r.followConst token
    if followed.ended then followed else followed.word token next
  | .operator => r.operator token next
  | .number legacy =>
    if legacy then inner.report .legacyDecimal token.offset else inner
  | .holeOpen => inner.push (r.top.group .hole)
  | .holeNext =>
    let closed := r.close .hole token next
    closed.push (closed.top.group .hole)
  | .holeClose => r.close .hole token next
  | .string | .template | .regex => inner

/-- Reads one token. -/
def step (r : Reading) (token : Token) (next : Option Token) : Reading :=
  if r.ended then r
  else if lacksOperand r.before token then r.stop .expressionExpected token.offset
  else
    let after := ((r.crossLine token).enterBody token).take token next
    { after with before := some token }

/-- Reads all tokens. -/
def steps (r : Reading) : List Token → Reading
  | [] => r
  | token :: rest => (r.step token rest.head?).steps rest

/-- The bracket that still waits to be closed at the end of the text. -/
def unclosed? (r : Reading) : Option (List Char) :=
  (r.top :: r.outer).findSome? fun frame => frame.opening.closing?

/-- Ends the reading at the end of the text, which is at `offset`. -/
def finish (r : Reading) (offset : Nat) : Reading :=
  let r := r.endArrows.endConst
  match r.unclosed? with
  | some closing => r.stop (.expected closing "<eof>".toList) offset
  | none => r

end Reading

/-- The findings in a module, in the order in which they are met. A byte-order mark at its beginning
does not count. -/
def findings (text : List Char) : List Finding :=
  let text := dropMark text
  let read := tokenize text
  let r := Reading.start.steps read.tokens
  let ended :=
    if r.ended then r
    else match read.broken with
      | some finding => { r with found := finding :: r.found }
      | none => r.finish (byteLength text)
  ended.found.reverse

end HangulScript.TypeScript
