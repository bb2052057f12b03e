import HangulScript.Json.Skip
import HangulScript.Options.Basic

/-!
# Reading options

Options are read from an object, whose unknown members are skipped, or from an array of at most two
choices. What is left out stays switched on. The first problem from the left decides the failure.
-/

namespace HangulScript.Options

open Json

/-- Reads a word, a number or a string whose value is not asked for. -/
def readOther : List Char → Read Unit
  | 'n' :: rest => (readLiteral ['u', 'l', 'l'] rest).map fun _ => ()
  | 't' :: rest => (readLiteral ['r', 'u', 'e'] rest).map fun _ => ()
  | 'f' :: rest => (readLiteral ['a', 'l', 's', 'e'] rest).map fun _ => ()
  | '-' :: rest => (readNumber rest).map fun _ => ()
  | '"' :: rest => (readString none rest).map fun _ => ()
  | c :: rest => if c.isDigit then (readNumber (c :: rest)).map fun _ => () else .error .malformed
  | [] => .error .endOfText

/-- Reads a choice. Another value is wrong data, at once when it is an array or an object, else
after it has been read. -/
def readBool (s : List Char) : Read (Bool × List Char) :=
  match skipSpace s with
  | 't' :: rest => (readLiteral ['r', 'u', 'e'] rest).map (true, ·)
  | 'f' :: rest => (readLiteral ['a', 'l', 's', 'e'] rest).map (false, ·)
  | '[' :: _ | '{' :: _ => .error .wrongData
  | other => (readOther other).bind fun _ => .error .wrongData

/-- Reads the end of the text. -/
def readEnd (s : List Char) : Read Unit :=
  if skipSpace s = [] then .ok () else .error .malformed

/-! ## Arrays -/

/-- Reads the next choice of an array, unless the array ends there. -/
def readElement (first : Bool) (s : List Char) : Read (Option Bool × List Char) :=
  match skipSpace s with
  | [] => .error .endOfText
  | ']' :: rest => .ok (none, ']' :: rest)
  | c :: rest =>
    if first then (readBool (c :: rest)).map fun read => (some read.1, read.2)
    else if c = ',' then
      match skipSpace rest with
      | [] => .error .endOfText
      | ']' :: _ => .error .malformed
      | _ => (readBool rest).map fun read => (some read.1, read.2)
    else .error .malformed

/-- Reads the bracket that ends an array. -/
def readClosing (s : List Char) : Read (List Char) :=
  match skipSpace s with
  | [] => .error .endOfText
  | ']' :: rest => .ok rest
  | _ => .error .malformed

/-- Reads an array of choices after its bracket. -/
def readArray (s : List Char) : Read (Options × List Char) := do
  match ← readElement true s with
  | (none, s) => return ({}, ← readClosing s)
  | (some keywords, s) =>
    match ← readElement false s with
    | (none, s) => return ({ keywords }, ← readClosing s)
    | (some classMethods, s) => return ({ keywords, classMethods }, ← readClosing s)

/-! ## Objects -/

/-- The choices found so far. -/
structure Found where
  keywords : Option Bool := none
  classMethods : Option Bool := none
deriving DecidableEq, Repr

def Found.get? (found : Found) : Field → Option Bool
  | .keywords => found.keywords
  | .classMethods => found.classMethods

def Found.set (found : Found) (field : Field) (b : Bool) : Found :=
  match field with
  | .keywords => { found with keywords := some b }
  | .classMethods => { found with classMethods := some b }

/-- What was not found is switched on. -/
def Found.options (found : Found) : Options :=
  ⟨found.keywords.getD true, found.classMethods.getD true⟩

/-- Reads the colon between a name and its value. -/
def readColon (s : List Char) : Read (List Char) :=
  match skipSpace s with
  | [] => .error .endOfText
  | ':' :: rest => .ok rest
  | _ => .error .malformed

/-- Reads a member after the opening quote of its name. A choice may be made once. -/
def readMember (found : Found) (s : List Char) : Read (Found × List Char) := do
  let (name, s) ← readString none s
  match Field.ofName? name with
  | some field =>
    if (found.get? field).isSome then throw .wrongData
    let (b, s) ← readBool (← readColon s)
    return (found.set field b, s)
  | none => return (found, ← skipValue (← readColon s))

theorem length_readBool_lt {s : List Char} {read : Bool × List Char} (h : readBool s = .ok read) :
    read.2.length < s.length := by
  unfold readBool at h
  split at h
  · next rest hspace =>
    obtain ⟨after, hafter, rfl⟩ := map_eq_ok h
    exact length_lt_of_read hspace (readLiteral_suffix hafter).length_le
  · next rest hspace =>
    obtain ⟨after, hafter, rfl⟩ := map_eq_ok h
    exact length_lt_of_read hspace (readLiteral_suffix hafter).length_le
  · simp at h
  · simp at h
  · cases hother : readOther (skipSpace s) <;> simp [hother, Except.bind] at h

theorem length_readColon_lt {s rest : List Char} (h : readColon s = .ok rest) :
    rest.length < s.length := by
  unfold readColon at h
  split at h
  · simp at h
  · next after hspace =>
    obtain rfl := Except.ok.inj h
    exact length_lt_of_skipSpace hspace
  · simp at h

theorem length_readMember_le {found : Found} {s : List Char} {read : Found × List Char}
    (h : readMember found s = .ok read) : read.2.length ≤ s.length := by
  unfold readMember at h
  cases hname : readString none s with
  | error e => simp [hname, bind, Except.bind] at h
  | ok name =>
    have hle := (readString_suffix hname).length_le
    simp only [hname, bind, Except.bind] at h
    cases hcolon : readColon name.2 with
    | error e =>
      simp only [hcolon] at h
      repeat' split at h
      all_goals simp_all [throw, throwThe, MonadExceptOf.throw]
    | ok value =>
      have hlt := length_readColon_lt hcolon
      simp only [hcolon] at h
      split at h
      · next field hfield =>
        split at h
        · simp [throw, throwThe, MonadExceptOf.throw] at h
        · cases hbool : readBool value with
          | error e => simp [hbool] at h
          | ok b =>
            have := length_readBool_lt hbool
            simp only [hbool, pure, Except.pure, Except.ok.injEq] at h
            subst h
            show b.2.length ≤ s.length
            omega
      · cases hskip : skipValue value with
        | error e => simp [hskip] at h
        | ok rest =>
          have := length_skipFrom_le hskip
          simp only [hskip, pure, Except.pure, Except.ok.injEq] at h
          subst h
          show rest.length ≤ s.length
          omega

/-- Reads the members of an object up to its closing brace. -/
def readMembers (first : Bool) (found : Found) (s : List Char) : Read (Found × List Char) :=
  match _h : skipSpace s with
  | [] => .error .endOfText
  | c :: rest =>
    if c = '}' then .ok (found, rest)
    else if first then
      if c = '"' then
        match _h : readMember found rest with
        | .error e => .error e
        | .ok read => readMembers false read.1 read.2
      else .error .malformed
    else if c = ',' then
      match _h : skipSpace rest with
      | [] => .error .endOfText
      | '"' :: rest =>
        match _h : readMember found rest with
        | .error e => .error e
        | .ok read => readMembers false read.1 read.2
      | _ => .error .malformed
    else .error .malformed
termination_by s.length
decreasing_by
  · exact length_lt_of_read (by assumption) (length_readMember_le _h)
  · have hinner := length_lt_of_read (by assumption) (length_readMember_le _h)
    exact length_lt_of_read (by assumption) (Nat.le_of_lt hinner)

/-- Reads options from the text of an object or an array. -/
def ofText (s : List Char) : Read Options :=
  match skipSpace s with
  | [] => .error .endOfText
  | '[' :: rest => do
    let (options, s) ← readArray rest
    readEnd s
    return options
  | '{' :: rest => do
    let (found, s) ← readMembers true {} rest
    readEnd s
    return found.options
  | other => (readOther other).bind fun _ => .error .wrongData

end HangulScript.Options
