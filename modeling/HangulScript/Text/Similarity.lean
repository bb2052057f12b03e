/-!
# Similarity of words

How alike two words are: the mean of three shares, those of each word's characters that find their
like in the other, and that of the found characters that stand in order.
-/

namespace HangulScript.Text

/-- The characters of a word that find their like in the other word, each with its place there. A
character takes the first place that is free and at most `reach` away from its own, `i`. -/
def likesFrom (reach : Nat) (other : List Char) (i : Nat) (taken : List Nat) :
    List Char → List (Char × Nat)
  | [] => []
  | c :: rest =>
    let fits (j : Nat) : Bool :=
      i ≤ j + reach && j ≤ i + reach && other[j]? == some c && !taken.contains j
    match (List.range other.length).find? fits with
    | some j => (c, j) :: likesFrom reach other (i + 1) (j :: taken) rest
    | none => likesFrom reach other (i + 1) taken rest

/-- The characters of one word that find their like in the other. -/
def likes (word other : List Char) : List (Char × Nat) :=
  likesFrom (max word.length other.length / 2 - 1) other 0 [] word

/-- Pairs of found characters that stand in another order in the other word. -/
def crossings (found : List (Char × Nat)) (other : List Char) : Nat :=
  let there := (List.range other.length).filter fun j => found.any (·.2 = j)
  let differing := (found.zip there).filter fun (like, j) => other[j]? ≠ some like.1
  differing.length / 2

/-- How alike two words are, from 0 to 1. -/
def similarity (word other : List Char) : Rat :=
  let found := likes word other
  let count : Rat := found.length
  if found = [] then 0
  else
    (count / word.length + count / other.length +
      (found.length - crossings found other : Nat) / count) / 3

end HangulScript.Text
