import HangulScript.Diagnostic.Finding
import HangulScript.Text.Word
import HangulScript.Text.Blank
import HangulScript.TypeScript.Problem

/-!
# Tokens of TypeScript

A text is cut into words, numbers, literals and operators; blanks and comments only leave behind
whether a line ended. The text of a template stays inside the tokens that open and close its holes.
A region that is not closed ends the reading.
-/

namespace HangulScript.TypeScript

open Text

/-- What a token is. -/
inductive TokenKind
  | word
  /-- A number; `legacy` when it begins with a zero and counts in tens all the same. -/
  | number (legacy : Bool)
  | string
  /-- A template without holes. -/
  | template
  | regex
  /-- The text of a template up to its first hole. -/
  | holeOpen
  /-- The text of a template between two holes. -/
  | holeNext
  /-- The text of a template after its last hole. -/
  | holeClose
  | operator
deriving DecidableEq, Repr

/-- A token, the byte offset where it begins, and whether a line ended before it. -/
structure Token where
  kind : TokenKind
  /-- The spelling of a word, a number or an operator. -/
  text : String
  offset : Nat
  afterNewline : Bool
deriving DecidableEq, Repr

namespace Token

/-- The token is the given operator. -/
def isOperator (token : Token) (text : String) : Bool :=
  token.kind = .operator && token.text = text

/-- The token is the given word. -/
def isWord (token : Token) (text : String) : Bool :=
  token.kind = .word && token.text = text

end Token

/-! ## Words -/

/-- Words that cannot be names. -/
def reservedWords : List String :=
  ["break", "case", "catch", "class", "const", "continue", "debugger", "default", "delete", "do",
    "else", "enum", "export", "extends", "false", "finally", "for", "function", "if", "import",
    "in", "instanceof", "new", "null", "return", "super", "switch", "this", "throw", "true", "try",
    "typeof", "var", "void", "while", "with"]

/-- Words after which the expression or declaration at hand goes on. -/
def openEndedWords : List String :=
  ["as", "await", "case", "catch", "class", "const", "default", "delete", "do", "else", "export",
    "extends", "finally", "for", "function", "if", "implements", "import", "in", "instanceof",
    "keyof", "let", "new", "of", "return", "satisfies", "switch", "throw", "try", "typeof", "var",
    "while", "yield"]

/-- The token can end an operand. -/
def Token.endsOperand (token : Token) : Bool :=
  match token.kind with
  | .word => !openEndedWords.contains token.text
  | .operator => [")", "]", "\x7d", "++", "--"].contains token.text
  | .holeOpen | .holeNext => false
  | _ => true

/-- After the token a slash begins a regular expression, if one ends on the same line. -/
def Token.allowsRegex (token : Token) : Bool :=
  !token.endsOperand || token.isOperator "\x7d"

/-! ## Lengths of tokens

Each function takes the text from its place on and gives a number of characters.
-/

def isLineEnd (c : Char) : Bool :=
  c == '\n' || c == '\r' || c == '\u2028' || c == '\u2029'

/-- The length of a string after its opening quote; none when the line ends first. -/
def stringLength (quote : Char) : List Char → Option Nat
  | [] => none
  | '\\' :: '\r' :: '\n' :: rest => (stringLength quote rest).map (· + 3)
  | '\\' :: _ :: rest => (stringLength quote rest).map (· + 2)
  | c :: rest =>
    if c = quote then some 1
    else if c = '\n' ∨ c = '\r' then none
    else (stringLength quote rest).map (· + 1)

/-- The length of template text up to its closing backtick or the opening of a hole, and whether a
hole opens; none when neither comes. -/
def templateLength : List Char → Option (Nat × Bool)
  | [] => none
  | '`' :: _ => some (1, false)
  | '$' :: '{' :: _ => some (2, true)
  | '\\' :: _ :: rest => (templateLength rest).map fun found => (found.1 + 2, found.2)
  | _ :: rest => (templateLength rest).map fun found => (found.1 + 1, found.2)

/-- The length of a block comment after its opening; none when it is not closed. -/
def commentLength : List Char → Option Nat
  | [] => none
  | '*' :: '/' :: _ => some 2
  | _ :: rest => (commentLength rest).map (· + 1)

/-- The length of a regular expression after its opening slash, without its flags; none when the
line ends first. A slash between square brackets does not close it. -/
def regexLength (inBrackets : Bool) : List Char → Option Nat
  | [] => none
  | '\\' :: c :: rest =>
    if isLineEnd c then none else (regexLength inBrackets rest).map (· + 2)
  | c :: rest =>
    if isLineEnd c then none
    else if c = '/' ∧ !inBrackets then some 1
    else
      let inside := if c = '[' then true else if c = ']' then false else inBrackets
      (regexLength inside rest).map (· + 1)

/-- The length of the letters and digits at the beginning of the text. -/
def wordLength (s : List Char) : Nat :=
  (s.takeWhile isNameChar).length

/-- The number begins with a mark of its base. -/
def hasBase : List Char → Bool
  | '0' :: c :: _ => ['x', 'X', 'o', 'O', 'b', 'B'].contains c
  | _ => false

/-- The length of a number. -/
def numberLength (s : List Char) : Nat :=
  let whole := wordLength s
  if hasBase s then whole
  else
    let pointed :=
      match s.drop whole with
      | '.' :: rest => whole + 1 + wordLength rest
      | _ => whole
    match (s.take pointed).getLast?, s.drop pointed with
    | some e, sign :: rest =>
      if (e = 'e' ∨ e = 'E') ∧ (sign = '+' ∨ sign = '-') then pointed + 1 + wordLength rest
      else pointed
    | _, _ => pointed

/-- The number begins with a zero and has a digit that no octal number has. -/
def isLegacyDecimal (s : List Char) : Bool :=
  let digits := s.takeWhile Char.isDigit
  digits.head? = some '0' && digits.any ('8' ≤ ·)

/-- The operators of more than one character, the longer ones first. -/
def longOperators : List String :=
  [">>>=", "...", "===", "!==", "**=", "<<=", ">>=", ">>>", "&&=", "||=", "??=", "=>", "==", "!=",
    "<=", ">=", "&&", "||", "??", "?.", "++", "--", "+=", "-=", "*=", "/=", "%=", "&=", "|=", "^=",
    "<<", ">>", "**"]

/-- The length of the operator at the beginning of the text. -/
def operatorLength (s : List Char) : Nat :=
  ((longOperators.find? fun op => op.toList.isPrefixOf s).map String.length).getD 1

/-! ## Reading -/

/-- A template whose hole is being read: where it began, and the braces open in the hole. -/
structure OpenTemplate where
  offset : Nat
  braces : Nat
deriving DecidableEq, Repr

/-- What stands at the beginning of a text. -/
inductive Lexeme
  /-- Something that is no token; `newline` when a line ends in it. -/
  | blank (length : Nat) (newline : Bool)
  | token (kind : TokenKind) (length : Nat)
  /-- A region that is not closed. -/
  | broken (problem : Problem)
deriving Repr

/-- The lexeme of template text, after a backtick or after the brace that ends a hole. -/
def templateLexeme (closed opened : TokenKind) (rest : List Char) : Lexeme :=
  match templateLength rest with
  | none => .broken .unterminatedTemplate
  | some (length, opens) => .token (if opens then opened else closed) (length + 1)

/-- The lexeme that a slash begins. -/
def slashLexeme (allowsRegex : Bool) (rest : List Char) : Lexeme :=
  match rest with
  | '/' :: rest => .blank ((rest.takeWhile fun c => !isLineEnd c).length + 2) false
  | '*' :: rest =>
    match commentLength rest with
    | none => .broken .unterminatedComment
    | some length => .blank (length + 2) ((rest.take length).any isLineEnd)
  | rest =>
    match if allowsRegex then regexLength false rest else none with
    | some length => .token .regex (length + 1 + wordLength (rest.drop length))
    | none => .token .operator (operatorLength ('/' :: rest))

/-- The lexeme at the beginning of `c :: rest`. -/
def lexeme (inHole allowsRegex : Bool) (c : Char) (rest : List Char) : Lexeme :=
  if isLineEnd c then .blank 1 true
  else if isBlank c || c == '\uFEFF' then .blank 1 false
  else if c = '"' ∨ c = '\'' then
    match stringLength c rest with
    | none => .broken .unterminatedString
    | some length => .token .string (length + 1)
  else if c = '`' then templateLexeme .template .holeOpen rest
  else if c = '}' ∧ inHole then templateLexeme .holeClose .holeNext rest
  else if c = '/' then slashLexeme allowsRegex rest
  else if c.isDigit ∨ (c = '.' ∧ rest.head?.any Char.isDigit) then
    .token (.number (isLegacyDecimal (c :: rest))) (numberLength (c :: rest))
  else if isNameChar c ∨ c = '#' then .token .word (1 + wordLength rest)
  else .token .operator (operatorLength (c :: rest))

/-- The templates that are open after a token at an offset. -/
def templatesAfter (templates : List OpenTemplate) (kind : TokenKind) (c : Char) (offset : Nat) :
    List OpenTemplate :=
  match kind, templates with
  | .holeOpen, templates => ⟨offset, 0⟩ :: templates
  | .holeClose, _ :: outer => outer
  | .operator, template :: outer =>
    if c = '{' then { template with braces := template.braces + 1 } :: outer
    else if c = '}' then { template with braces := template.braces - 1 } :: outer
    else template :: outer
  | _, templates => templates

/-- The tokens of a text, and the finding that ended the reading, if one did. -/
structure Tokens where
  tokens : List Token
  broken : Option Finding

/-- Where an unclosed region is reported: a comment at the end of the text, a template where it
began. -/
def brokenAt (templates : List OpenTemplate) (c : Char) (offset : Nat) (text : List Char)
    (problem : Problem) : Finding :=
  match problem with
  | .unterminatedComment => ⟨problem, some (offset + byteLength text)⟩
  | .unterminatedTemplate =>
    ⟨problem, some (if c = '`' then offset else (templates.head?.map (·.offset)).getD offset)⟩
  | _ => ⟨problem, some offset⟩

/-- The tokens from a place on. `before` is the token that ends there. -/
def tokensFrom (templates : List OpenTemplate) (before : Option Token) (newline : Bool)
    (offset : Nat) : List Char → Tokens
  | [] => ⟨[], none⟩
  | c :: rest =>
    let inHole := templates.head?.any (·.braces = 0)
    match lexeme inHole ((before.map Token.allowsRegex).getD true) c rest with
    | .blank length ends =>
      tokensFrom templates before (newline || ends) (offset + byteLength ((c :: rest).take length))
        (rest.drop (length - 1))
    | .token kind length =>
      let spelling := (c :: rest).take length
      let token : Token := ⟨kind, String.ofList spelling, offset, newline⟩
      let after := tokensFrom (templatesAfter templates kind c offset) (some token) false
        (offset + byteLength spelling) (rest.drop (length - 1))
      { after with tokens := token :: after.tokens }
    | .broken problem => ⟨[], some (brokenAt templates c offset (c :: rest) problem)⟩
termination_by text => text.length
decreasing_by
  · simp only [List.length_drop, List.length_cons]; omega
  · simp only [List.length_drop, List.length_cons]; omega

/-- The tokens of a text. A first line that begins with `#!` is skipped. -/
def tokenize (text : List Char) : Tokens :=
  match text with
  | '#' :: '!' :: rest =>
    let line := '#' :: '!' :: rest.takeWhile fun c => !isLineEnd c
    tokensFrom [] none false (byteLength line) (text.drop line.length)
  | text => tokensFrom [] none false 0 text

end HangulScript.TypeScript
