import HangulScript.Json.Number
import HangulScript.Text.Cursor

/-!
# Tokens of JSON

Readers of the blanks, words, numbers and strings of JSON. Each takes the text from its place on and
gives the text after what it read, which is an end of the given one (`…_suffix`).
-/

namespace HangulScript.Json

open Text

/-- Why a text cannot be read. -/
inductive Failure
  /-- The text ends too early. -/
  | endOfText
  /-- The text breaks the grammar. -/
  | malformed
  /-- The text is JSON so far and holds the wrong data. -/
  | wrongData
deriving DecidableEq, Repr

/-- A reader's result. -/
abbrev Read (α : Type) := Except Failure α

def isSpace (c : Char) : Bool :=
  c == ' ' || c == '\n' || c == '\r' || c == '\t'

def skipSpace (s : List Char) : List Char :=
  s.dropWhile isSpace

/-- Reads the given characters. -/
def readLiteral : List Char → List Char → Read (List Char)
  | [], s => .ok s
  | _ :: _, [] => .error .endOfText
  | w :: word, c :: s => if w = c then readLiteral word s else .error .malformed

/-! ## Numbers -/

/-- The digits at the beginning of the text and the text after them. -/
def spanDigits (s : List Char) : List Char × List Char :=
  (s.takeWhile Char.isDigit, s.dropWhile Char.isDigit)

/-- The digits before the point, those after it, the exponent's sign and its digits. -/
structure Numeral where
  whole : List Char
  fraction : List Char
  negativeExponent : Bool
  exponent : List Char

/-- Reads the digits that must follow a point, an `e` or a sign; `short` is the failure at the end
of the text. -/
def readDigits (short : Failure) (s : List Char) : Read (List Char × List Char) :=
  match s with
  | [] => .error short
  | c :: _ => if c.isDigit then .ok (spanDigits s) else .error .malformed

/-- Reads an exponent, if there is one. -/
def readExponent (short : Failure) (whole fraction s : List Char) :
    Read (Numeral × List Char) := do
  match s with
  | c :: rest =>
    if c = 'e' ∨ c = 'E' then
      let digits ← readDigits short (if rest.head? = some '+' ∨ rest.head? = some '-' then rest.tail
        else rest)
      return (⟨whole, fraction, rest.head? = some '-', digits.1⟩, digits.2)
    else return (⟨whole, fraction, false, []⟩, s)
  | [] => return (⟨whole, fraction, false, []⟩, [])

/-- Reads a number after its sign. -/
def readNumeral (short : Failure) (s : List Char) : Read (Numeral × List Char) := do
  let whole ← readDigits short s
  if whole.1.head? = some '0' ∧ whole.1 ≠ ['0'] then throw .malformed
  match whole.2 with
  | '.' :: rest =>
    let fraction ← readDigits short rest
    readExponent short whole.1 fraction.1 fraction.2
  | rest => readExponent short whole.1 [] rest

/-- Reads a number after its sign and checks that a double can hold it. -/
def readNumber (s : List Char) : Read (List Char) := do
  let (numeral, rest) ← readNumeral .endOfText s
  if exceedsDouble numeral.whole numeral.fraction numeral.negativeExponent numeral.exponent then
    throw .malformed
  return rest

/-- Skips a number after its sign, whatever its size. -/
def skipNumber (s : List Char) : Read (List Char) := do
  return (← readNumeral .malformed s).2

/-! ## Strings -/

def hexDigit? (c : Char) : Option Nat :=
  if c.isDigit then some (c.toNat - '0'.toNat)
  else if 'a' ≤ c ∧ c ≤ 'f' then some (c.toNat - 'a'.toNat + 10)
  else if 'A' ≤ c ∧ c ≤ 'F' then some (c.toNat - 'A'.toNat + 10)
  else none

/-- The number that four hexadecimal digits spell. -/
def hexValue? (a b c d : Char) : Option Nat := do
  return (((← hexDigit? a) * 16 + (← hexDigit? b)) * 16 + (← hexDigit? c)) * 16 + (← hexDigit? d)

/-- The character that stands for itself or is named by a letter after a backslash. -/
def escaped? : Char → Option Char
  | '"' => some '"'
  | '\\' => some '\\'
  | '/' => some '/'
  | 'b' => some '\x08'
  | 'f' => some '\x0c'
  | 'n' => some '\n'
  | 'r' => some '\r'
  | 't' => some '\t'
  | _ => none

/-- The failure of a text that is too short for, or does not hold, four hexadecimal digits. -/
def hexFailure (s : List Char) : Failure :=
  if byteLength s < 4 then .endOfText else .malformed

/-- The first half of a pair of surrogates. -/
def isHighSurrogate (n : Nat) : Bool :=
  0xD800 ≤ n && n ≤ 0xDBFF

/-- The second half of a pair of surrogates. -/
def isLowSurrogate (n : Nat) : Bool :=
  0xDC00 ≤ n && n ≤ 0xDFFF

/-- The character of a pair of surrogates. -/
def pairedChar (high low : Nat) : Char :=
  Char.ofNat ((high - 0xD800) * 0x400 + (low - 0xDC00) + 0x10000)

/-- Reads a string after its opening quote, and gives the text that it spells. `high` is the first
half of a pair of surrogates that still needs its second half. -/
def readString (high : Option Nat) : List Char → Read (List Char × List Char)
  | [] => .error .endOfText
  | '\\' :: 'u' :: a :: b :: c :: d :: rest =>
    match hexValue? a b c d, high with
    | none, _ => .error .malformed
    | some n, some first =>
      if isLowSurrogate n then
        (readString none rest).map fun read => (pairedChar first n :: read.1, read.2)
      else .error .malformed
    | some n, none =>
      if isLowSurrogate n then .error .malformed
      else if isHighSurrogate n then readString (some n) rest
      else (readString none rest).map fun read => (Char.ofNat n :: read.1, read.2)
  | '\\' :: 'u' :: rest => .error (hexFailure rest)
  | ['\\'] => .error .endOfText
  | '\\' :: c :: rest =>
    match escaped? c, high with
    | some char, none => (readString none rest).map fun read => (char :: read.1, read.2)
    | _, _ => .error .malformed
  | c :: rest =>
    if high.isSome ∨ c.toNat < 0x20 then .error .malformed
    else if c = '"' then .ok ([], rest)
    else (readString none rest).map fun read => (c :: read.1, read.2)

/-- Skips a string after its opening quote. Halves of surrogate pairs may stand alone in it. -/
def skipString : List Char → Read (List Char)
  | [] => .error .endOfText
  | '\\' :: 'u' :: a :: b :: c :: d :: rest =>
    if (hexValue? a b c d).isSome then skipString rest else .error .malformed
  | '\\' :: 'u' :: rest => .error (hexFailure rest)
  | ['\\'] => .error .endOfText
  | '\\' :: c :: rest => if (escaped? c).isSome then skipString rest else .error .malformed
  | c :: rest =>
    if c.toNat < 0x20 then .error .malformed
    else if c = '"' then .ok rest
    else skipString rest

/-! ## What is left -/

theorem skipSpace_suffix (s : List Char) : skipSpace s <:+ s :=
  List.dropWhile_suffix isSpace

/-- What follows the first character that is no blank is shorter than the text. -/
theorem length_lt_of_skipSpace {s rest : List Char} {c : Char} (h : skipSpace s = c :: rest) :
    rest.length < s.length := by
  have := (skipSpace_suffix s).length_le
  simp only [h, List.length_cons] at this
  omega

theorem readLiteral_suffix {word s rest : List Char} (h : readLiteral word s = .ok rest) :
    rest <:+ s := by
  fun_induction readLiteral word s with
  | case1 => obtain rfl := Except.ok.inj h; exact List.suffix_refl _
  | case2 => simp at h
  | case3 w word s ih => exact (ih h).trans (List.suffix_cons _ _)
  | case4 => simp at h

theorem readDigits_suffix {short : Failure} {s : List Char} {read : List Char × List Char}
    (h : readDigits short s = .ok read) : read.2 <:+ s := by
  unfold readDigits at h
  split at h
  · simp at h
  · split at h
    · obtain rfl := Except.ok.inj h
      exact List.dropWhile_suffix _
    · simp at h

theorem length_readDigits_lt {short : Failure} {s : List Char} {read : List Char × List Char}
    (h : readDigits short s = .ok read) : read.2.length < s.length := by
  unfold readDigits at h
  split at h
  · simp at h
  · next c rest =>
    split at h
    · next hdigit =>
      obtain rfl := Except.ok.inj h
      simp only [spanDigits, List.dropWhile_cons, hdigit, if_true, List.length_cons]
      exact Nat.lt_succ_of_le (List.dropWhile_suffix _).length_le
    · simp at h

theorem readExponent_suffix {short : Failure} {whole fraction s : List Char}
    {read : Numeral × List Char} (h : readExponent short whole fraction s = .ok read) :
    read.2 <:+ s := by
  unfold readExponent at h
  split at h
  · next c rest =>
    split at h
    · cases hd : readDigits short (if rest.head? = some '+' ∨ rest.head? = some '-' then rest.tail
          else rest) with
      | error e => simp [hd, bind, Except.bind] at h
      | ok digits =>
        simp only [hd, bind, Except.bind, pure, Except.pure, Except.ok.injEq] at h
        subst h
        have hs := readDigits_suffix hd
        refine hs.trans (List.IsSuffix.trans ?_ (List.suffix_cons c rest))
        split
        · exact List.tail_suffix rest
        · exact List.suffix_refl rest
    · obtain rfl := Except.ok.inj h
      exact List.suffix_refl _
  · obtain rfl := Except.ok.inj h
    exact List.suffix_refl _

/-- A number takes at least one digit. -/
theorem length_readNumeral_lt {short : Failure} {s : List Char} {read : Numeral × List Char}
    (h : readNumeral short s = .ok read) : read.2.length < s.length := by
  unfold readNumeral at h
  cases hw : readDigits short s with
  | error e => simp [hw, bind, Except.bind] at h
  | ok whole =>
    have hs := length_readDigits_lt hw
    simp only [hw, bind, Except.bind] at h
    split at h
    · simp [throw, throwThe, MonadExceptOf.throw] at h
    · split at h
      · next rest hdot =>
        cases hf : readDigits short rest with
        | error e => simp [hf] at h
        | ok fraction =>
          simp only [hf] at h
          have he := (readExponent_suffix h).length_le
          have hd := length_readDigits_lt hf
          simp only [hdot, List.length_cons] at hs
          omega
      · exact Nat.lt_of_le_of_lt (readExponent_suffix h).length_le hs

theorem length_skipNumber_lt {s rest : List Char} (h : skipNumber s = .ok rest) :
    rest.length < s.length := by
  unfold skipNumber at h
  cases hn : readNumeral .malformed s with
  | error e => simp [hn, bind, Except.bind] at h
  | ok read =>
    simp only [hn, bind, Except.bind, pure, Except.pure, Except.ok.injEq] at h
    exact h ▸ length_readNumeral_lt hn

theorem map_eq_ok {α β : Type} {f : α → β} {x : Read α} {b : β} (h : x.map f = .ok b) :
    ∃ a, x = .ok a ∧ f a = b := by
  cases x with
  | error e => simp [Except.map] at h
  | ok a => exact ⟨a, rfl, by simpa [Except.map] using h⟩

theorem suffix_drop {s rest : List Char} {n : Nat} (h : rest <:+ s.drop n) : rest <:+ s :=
  h.trans (List.drop_suffix n s)

theorem readString_suffix {high : Option Nat} {s : List Char} {read : List Char × List Char}
    (h : readString high s = .ok read) : read.2 <:+ s := by
  fun_induction readString high s generalizing read with
  | case1 => simp at h
  | case2 => simp at h
  | case3 a b c d rest n first hhex hlow ih =>
    obtain ⟨tail, htail, rfl⟩ := map_eq_ok h
    exact suffix_drop (n := 6) (show tail.2 <:+ _ from ih htail)
  | case4 => simp at h
  | case5 => simp at h
  | case6 a b c d rest n hhex hlow hhigh ih => exact suffix_drop (n := 6) (ih h)
  | case7 a b c d rest n hhex hlow hhigh ih =>
    obtain ⟨tail, htail, rfl⟩ := map_eq_ok h
    exact suffix_drop (n := 6) (show tail.2 <:+ _ from ih htail)
  | case8 => simp at h
  | case9 => simp at h
  | case10 c rest =>
    obtain ⟨tail, htail, rfl⟩ := map_eq_ok h
    rename_i ih
    exact suffix_drop (n := 2) (show tail.2 <:+ _ from ih htail)
  | case11 => simp at h
  | case12 => simp at h
  | case13 =>
    obtain rfl := Except.ok.inj h
    exact List.suffix_cons _ _
  | case14 =>
    obtain ⟨tail, htail, rfl⟩ := map_eq_ok h
    rename_i ih
    exact suffix_drop (n := 1) (show tail.2 <:+ _ from ih htail)

theorem skipString_suffix {s rest : List Char} (h : skipString s = .ok rest) : rest <:+ s := by
  fun_induction skipString s with
  | case1 => simp at h
  | case2 a b c d text hhex ih => exact suffix_drop (n := 6) (ih h)
  | case3 => simp at h
  | case4 => simp at h
  | case5 => simp at h
  | case6 => rename_i ih; exact suffix_drop (n := 2) (ih h)
  | case7 => simp at h
  | case8 => simp at h
  | case9 =>
    obtain rfl := Except.ok.inj h
    exact List.suffix_cons _ _
  | case10 => rename_i ih; exact suffix_drop (n := 1) (ih h)

end HangulScript.Json
