import HangulScript.Json.Token

/-!
# Skipping a value

Goes over one value of JSON, however deep its arrays and objects nest, without keeping any of it.
The brackets still open stand on a stack.
-/

namespace HangulScript.Json

/-- A bracket that is still open. -/
inductive Bracket
  | array
  | object
deriving DecidableEq, Repr

/-- The character that closes the bracket. -/
def Bracket.closing : Bracket → Char
  | array => ']'
  | object => '}'

/-- What has to come next. -/
inductive Expected
  | value
  /-- The first item of an array or object that has just been opened, or its end. -/
  | firstItem
  /-- A comma, or the end of the innermost array or object. -/
  | separator
  /-- The name of a member, and its value. -/
  | member
deriving DecidableEq, Repr

/-- The first item of a fresh bracket is looked at twice. -/
def Expected.rank : Expected → Nat
  | firstItem => 1
  | _ => 0

/-- What an item of the bracket begins with. -/
def Bracket.item : Bracket → Expected
  | array => .value
  | object => .member

/-- Reads a word, a number or a string. -/
def skipScalar (c : Char) (rest : List Char) : Read (List Char) :=
  match c with
  | 'n' => readLiteral ['u', 'l', 'l'] rest
  | 't' => readLiteral ['r', 'u', 'e'] rest
  | 'f' => readLiteral ['a', 'l', 's', 'e'] rest
  | '-' => skipNumber rest
  | '"' => skipString rest
  | c => if c.isDigit then skipNumber (c :: rest) else .error .malformed

/-- Reads the name of a member, after its opening quote, and the colon. -/
def skipName (s : List Char) : Read (List Char) := do
  match skipSpace (← skipString s) with
  | [] => throw .endOfText
  | ':' :: rest => return rest
  | _ => throw .malformed

theorem length_skipScalar_le {c : Char} {s rest : List Char} (h : skipScalar c s = .ok rest) :
    rest.length ≤ s.length := by
  unfold skipScalar at h
  split at h
  · exact (readLiteral_suffix h).length_le
  · exact (readLiteral_suffix h).length_le
  · exact (readLiteral_suffix h).length_le
  · exact Nat.le_of_lt (length_skipNumber_lt h)
  · exact (skipString_suffix h).length_le
  · split at h
    · exact Nat.le_of_lt_succ (length_skipNumber_lt h)
    · simp at h

theorem length_skipName_lt {s rest : List Char} (h : skipName s = .ok rest) :
    rest.length < s.length := by
  unfold skipName at h
  cases hs : skipString s with
  | error e => simp [hs, bind, Except.bind] at h
  | ok text =>
    have hle := (skipString_suffix hs).length_le
    simp only [hs, bind, Except.bind] at h
    split at h
    · simp [throw, throwThe, MonadExceptOf.throw] at h
    · next tail hcolon =>
      obtain rfl := Except.ok.inj h
      exact Nat.lt_of_lt_of_le (length_lt_of_skipSpace hcolon) hle
    · simp [throw, throwThe, MonadExceptOf.throw] at h

theorem length_lt_of_read {s rest after : List Char} {c : Char} (hspace : skipSpace s = c :: rest)
    (h : after.length ≤ rest.length) : after.length < s.length :=
  Nat.lt_of_le_of_lt h (length_lt_of_skipSpace hspace)

/-- Skips what is expected and all that the open brackets still hold. -/
def skipFrom (expected : Expected) (brackets : List Bracket) (s : List Char) : Read (List Char) :=
  match expected, brackets with
  | .separator, [] => .ok s
  | .separator, bracket :: outer =>
    match _h : skipSpace s with
    | [] => .error .endOfText
    | c :: rest =>
      if c = ',' then skipFrom bracket.item (bracket :: outer) rest
      else if c = bracket.closing then skipFrom .separator outer rest
      else .error .malformed
  | .firstItem, [] => .ok s
  | .firstItem, bracket :: outer =>
    match _h : skipSpace s with
    | [] => .error .endOfText
    | c :: rest =>
      if c = bracket.closing then skipFrom .separator outer rest
      else skipFrom bracket.item (bracket :: outer) (c :: rest)
  | .member, brackets =>
    match _h : skipSpace s with
    | [] => .error .endOfText
    | '"' :: rest =>
      match _h : skipName rest with
      | .error e => .error e
      | .ok rest => skipFrom .value brackets rest
    | _ => .error .malformed
  | .value, brackets =>
    match _h : skipSpace s with
    | [] => .error .endOfText
    | '[' :: rest => skipFrom .firstItem (.array :: brackets) rest
    | '{' :: rest => skipFrom .firstItem (.object :: brackets) rest
    | c :: rest =>
      match _h : skipScalar c rest with
      | .error e => .error e
      | .ok rest => skipFrom .separator brackets rest
termination_by (s.length, expected.rank)
decreasing_by
  · exact .left _ _ (length_lt_of_skipSpace _h)
  · exact .left _ _ (length_lt_of_skipSpace _h)
  · exact .left _ _ (length_lt_of_skipSpace _h)
  · have hle := (skipSpace_suffix s).length_le
    rw [_h] at hle
    rcases Nat.lt_or_eq_of_le hle with hlt | heq
    · exact .left _ _ hlt
    · rw [heq]
      exact .right _ (by cases bracket <;> simp [Bracket.item, Expected.rank])
  · exact .left _ _ (length_lt_of_read (by assumption) (Nat.le_of_lt (length_skipName_lt _h)))
  · exact .left _ _ (length_lt_of_skipSpace _h)
  · exact .left _ _ (length_lt_of_skipSpace _h)
  · exact .left _ _ (length_lt_of_read (by assumption) (length_skipScalar_le _h))

/-- Skips one value. -/
def skipValue (s : List Char) : Read (List Char) :=
  skipFrom .value [] s

theorem length_skipFrom_le {expected : Expected} {brackets : List Bracket} {s after : List Char}
    (h : skipFrom expected brackets s = .ok after) : after.length ≤ s.length := by
  fun_induction skipFrom expected brackets s with
  | case1 | case6 => exact Nat.le_of_eq (congrArg List.length (Except.ok.inj h).symm)
  | case2 | case5 | case7 | case10 | case11 | case13 | case14 | case17 => simp at h
  | case3 | case4 | case8 | case15 | case16 =>
    rename_i hspace ih
    exact Nat.le_of_lt (length_lt_of_read ‹skipSpace _ = _ :: _› (ih h))
  | case9 s bracket outer c rest hspace hne ih =>
    exact Nat.le_trans (ih h) (hspace ▸ (skipSpace_suffix s).length_le)
  | case12 s brackets text hspace rest hname ih =>
    exact Nat.le_of_lt (length_lt_of_read hspace
      (Nat.le_trans (ih h) (Nat.le_of_lt (length_skipName_lt hname))))
  | case18 s brackets c text hc hc' hspace rest hscalar ih =>
    exact Nat.le_of_lt (length_lt_of_read hspace
      (Nat.le_trans (ih h) (length_skipScalar_le hscalar)))

end HangulScript.Json
