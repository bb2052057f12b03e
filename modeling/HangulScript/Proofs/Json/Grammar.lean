import Mathlib.Data.Rat.Defs
import HangulScript.Json.Token
import HangulScript.Proofs.Text.Units

/-!
# The grammar of JSON

Which texts are JSON, and what they say. The grammar knows nothing of the readers and the printer.
-/

namespace HangulScript.Json

open Text

/-- What a JSON text says. A string is given by its UTF-16 units, for half of a pair of surrogates may stand alone in it. -/
inductive Datum
  | null
  | bool (b : Bool)
  | number (value : ℚ)
  | string (units : List Nat)
  | array (items : List Datum)
  | object (members : List (List Nat × Datum))

/-- White space. -/
def IsBlank (s : List Char) : Prop :=
  ∀ c ∈ s, c ∈ [' ', '\n', '\r', '\t']

instance (s : List Char) : Decidable (IsBlank s) :=
  List.decidableBAll _ s

theorem isBlank_nil : IsBlank [] :=
  List.forall_mem_nil _

/-! ## Strings -/

/-- A digit of a hexadecimal number, in lower or upper case. -/
def IsHexDigit (c : Char) (n : Nat) : Prop :=
  n < 16 ∧ (c = Nat.digitChar n ∨ c = (Nat.digitChar n).toUpper)

instance (c : Char) (n : Nat) : Decidable (IsHexDigit c n) :=
  inferInstanceAs (Decidable (_ ∧ _))

/-- The characters that a letter after a backslash stands for. -/
def escapes : List (Char × Char) :=
  [('"', '"'), ('\\', '\\'), ('/', '/'), ('b', '\x08'), ('f', '\x0c'), ('n', '\n'), ('r', '\r'), ('t', '\t')]

/-- The text of a string between its quotes, and its units. -/
inductive SpellsUnits : List Char → List Nat → Prop
  | nil : SpellsUnits [] []
  | char {c : Char} {s : List Char} {rest : List Nat} (hquote : c ≠ '"') (hescape : c ≠ '\\') (hcontrol : 0x20 ≤ c.toNat)
      (h : SpellsUnits s rest) : SpellsUnits (c :: s) (charUnits c ++ rest)
  | escape {letter c : Char} {s : List Char} {rest : List Nat} (hletter : (letter, c) ∈ escapes)
      (h : SpellsUnits s rest) : SpellsUnits ('\\' :: letter :: s) (charUnits c ++ rest)
  | code {c₃ c₂ c₁ c₀ : Char} {n₃ n₂ n₁ n₀ : Nat} {s : List Char} {rest : List Nat} (h₃ : IsHexDigit c₃ n₃)
      (h₂ : IsHexDigit c₂ n₂) (h₁ : IsHexDigit c₁ n₁) (h₀ : IsHexDigit c₀ n₀) (h : SpellsUnits s rest) :
      SpellsUnits ('\\' :: 'u' :: c₃ :: c₂ :: c₁ :: c₀ :: s) ((((n₃ * 16 + n₂) * 16 + n₁) * 16 + n₀) :: rest)

/-! ## Numbers -/

/-- At least one decimal digit. -/
structure IsDigits (s : List Char) : Prop where
  ne_nil : s ≠ []
  digit : ∀ c ∈ s, c.isDigit = true

/-- The digits of a whole number. Only zero begins with a zero. -/
structure IsWhole (s : List Char) : Prop extends IsDigits s where
  zero : s.head? = some '0' → s = ['0']

/-- A point and the digits after it, or nothing. -/
inductive SpellsFraction : List Char → List Char → Prop
  | none : SpellsFraction [] []
  | digits {s : List Char} (h : IsDigits s) : SpellsFraction ('.' :: s) s

/-- An exponent with its sign and digits, or nothing. -/
inductive SpellsExponent : List Char → Bool → List Char → Prop
  | none : SpellsExponent [] false []
  | plain {e : Char} {s : List Char} (he : e = 'e' ∨ e = 'E') (h : IsDigits s) : SpellsExponent (e :: s) false s
  | plus {e : Char} {s : List Char} (he : e = 'e' ∨ e = 'E') (h : IsDigits s) : SpellsExponent (e :: '+' :: s) false s
  | minus {e : Char} {s : List Char} (he : e = 'e' ∨ e = 'E') (h : IsDigits s) : SpellsExponent (e :: '-' :: s) true s

/-- A number without a sign. -/
inductive SpellsNumeral : List Char → Numeral → Prop
  | intro {whole point fraction power exponent : List Char} {negative : Bool} (hwhole : IsWhole whole)
      (hfraction : SpellsFraction point fraction) (hexponent : SpellsExponent power negative exponent) :
      SpellsNumeral (whole ++ (point ++ power)) ⟨whole, fraction, negative, exponent⟩

def Numeral.value (numeral : Numeral) : ℚ :=
  let power : ℤ := Nat.ofDigitChars 10 numeral.exponent 0
  Nat.ofDigitChars 10 (numeral.whole ++ numeral.fraction) 0 *
    10 ^ ((if numeral.negativeExponent then -power else power) - numeral.fraction.length)

/-! ## Values -/

/-- A value that holds no others. -/
inductive SpellsScalar : List Char → Datum → Prop
  | null : SpellsScalar ['n', 'u', 'l', 'l'] .null
  | true : SpellsScalar ['t', 'r', 'u', 'e'] (.bool true)
  | false : SpellsScalar ['f', 'a', 'l', 's', 'e'] (.bool false)
  | number {s : List Char} {numeral : Numeral} (h : SpellsNumeral s numeral) : SpellsScalar s (.number numeral.value)
  | negative {s : List Char} {numeral : Numeral} (h : SpellsNumeral s numeral) :
      SpellsScalar ('-' :: s) (.number (-numeral.value))
  | string {s : List Char} {units : List Nat} (h : SpellsUnits s units) : SpellsScalar ('"' :: (s ++ ['"'])) (.string units)

/-- The name of a member with its colon, amid blanks. -/
inductive SpellsName : List Char → List Nat → Prop
  | intro {before s after : List Char} {name : List Nat} (hbefore : IsBlank before) (h : SpellsUnits s name)
      (hafter : IsBlank after) : SpellsName (before ++ '"' :: (s ++ '"' :: (after ++ [':']))) name

mutual

inductive SpellsValue : List Char → Datum → Prop
  | scalar {s : List Char} {datum : Datum} (h : SpellsScalar s datum) : SpellsValue s datum
  | emptyArray {s : List Char} (hblank : IsBlank s) : SpellsValue ('[' :: (s ++ [']'])) (.array [])
  | array {s : List Char} {items : List Datum} (h : SpellsItems s items) : SpellsValue ('[' :: (s ++ [']'])) (.array items)
  | emptyObject {s : List Char} (hblank : IsBlank s) : SpellsValue ('{' :: (s ++ ['}'])) (.object [])
  | object {s : List Char} {members : List (List Nat × Datum)} (h : SpellsMembers s members) :
      SpellsValue ('{' :: (s ++ ['}'])) (.object members)

/-- A JSON text: a value amid blanks. -/
inductive Spells : List Char → Datum → Prop
  | intro {before s after : List Char} {datum : Datum} (hbefore : IsBlank before) (h : SpellsValue s datum)
      (hafter : IsBlank after) : Spells (before ++ (s ++ after)) datum

/-- The items of an array, with commas between them. -/
inductive SpellsItems : List Char → List Datum → Prop
  | last {s : List Char} {datum : Datum} (h : Spells s datum) : SpellsItems s [datum]
  | more {s rest : List Char} {datum : Datum} {items : List Datum} (h : Spells s datum) (hrest : SpellsItems rest items) :
      SpellsItems (s ++ ',' :: rest) (datum :: items)

/-- The members of an object, with commas between them. -/
inductive SpellsMembers : List Char → List (List Nat × Datum) → Prop
  | last {start s : List Char} {name : List Nat} {datum : Datum} (hname : SpellsName start name) (h : Spells s datum) :
      SpellsMembers (start ++ s) [(name, datum)]
  | more {start s rest : List Char} {name : List Nat} {datum : Datum} {members : List (List Nat × Datum)}
      (hname : SpellsName start name) (h : Spells s datum) (hrest : SpellsMembers rest members) :
      SpellsMembers (start ++ (s ++ ',' :: rest)) ((name, datum) :: members)

end

end HangulScript.Json
