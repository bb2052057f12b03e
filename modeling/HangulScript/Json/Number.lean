/-!
# Sizes of decimal numbers

A number is read into a significand of at most 64 bits and a power of ten; digits that no longer
fit only count for their place. The product is rounded twice to the 53 bits of a double, so
`exceedsDouble` says when the rounded product has no double.
-/

namespace HangulScript.Json

/-- `n` with all but its first 53 binary digits rounded away; a tie goes to the even neighbour. -/
def roundToDouble (n : Nat) : Nat :=
  let unit := Nat.pow 2 (n.log2 - 52)
  let low := n % unit
  let down := n / unit
  if unit < 2 * low ∨ (unit = 2 * low ∧ down % 2 = 1) then (down + 1) * unit else down * unit

/-- The largest significand that is kept. -/
def maxSignificand : Nat := Nat.pow 2 64 - 1

/-- Appends decimal digits to a significand as long as it stays small enough, and counts the digits
left over. -/
def appendDigits (significand : Nat) : List Char → Nat × Nat
  | [] => (significand, 0)
  | c :: rest =>
    let next := significand * 10 + (c.toNat - '0'.toNat)
    if next ≤ maxSignificand then appendDigits next rest else (significand, rest.length + 1)

/-- The value that decimal digits spell. -/
def digitsValue (digits : List Char) : Nat :=
  digits.foldl (fun value c => value * 10 + (c.toNat - '0'.toNat)) 0

/-- The number with these digits before and after its point and this exponent is too large for a
double. -/
def exceedsDouble (whole fraction : List Char) (negativeExponent : Bool) (exponent : List Char) :
    Bool :=
  let (kept, dropped) := appendDigits 0 whole
  let (significand, unread) := appendDigits kept fraction
  let shift : Int := dropped - (fraction.length - unread : Nat)
  let power : Int :=
    if negativeExponent then shift - digitsValue exponent else shift + digitsValue exponent
  if power < 0 ∨ significand = 0 then false
  else if 308 < power then true
  else Nat.pow 2 1024 ≤ roundToDouble (roundToDouble significand * roundToDouble (Nat.pow 10 power.toNat))

end HangulScript.Json
