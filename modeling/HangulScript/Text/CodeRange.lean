/-!
# Sets of characters as ranges of code points

A property of characters is kept as a list of closed ranges. `contains_iff` says that membership
is membership in one of the ranges.
-/

namespace HangulScript.Text

/-- The code points from `first` to `last`, both included. -/
structure CodeRange where
  first : Nat
  last : Nat
deriving DecidableEq, Repr

/-- The code point of `c` lies in the range. -/
def CodeRange.holds (r : CodeRange) (c : Char) : Bool :=
  r.first ≤ c.toNat && c.toNat ≤ r.last

/-- `c` lies in one of the ranges. -/
def CodeRange.contains (ranges : List CodeRange) (c : Char) : Bool :=
  ranges.any (·.holds c)

theorem CodeRange.contains_iff {ranges : List CodeRange} {c : Char} :
    contains ranges c = true ↔ ∃ r ∈ ranges, r.first ≤ c.toNat ∧ c.toNat ≤ r.last := by
  simp [contains, holds]

end HangulScript.Text
