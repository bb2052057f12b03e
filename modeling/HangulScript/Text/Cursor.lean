/-!
# Places in a text

A cursor is a place between two characters: it knows the character before it and everything after
it. Offsets count the bytes of UTF-8. `seek?_eq_some_iff` says that an offset names a place
exactly when it is the byte length of what stands before that place.
-/

namespace HangulScript.Text

/-- The bytes that the text takes in UTF-8. -/
def byteLength (text : List Char) : Nat :=
  text.foldr (fun c size => c.utf8Size + size) 0

@[simp] theorem byteLength_nil : byteLength [] = 0 := rfl

@[simp] theorem byteLength_cons (c : Char) (text : List Char) :
    byteLength (c :: text) = c.utf8Size + byteLength text := rfl

@[simp] theorem byteLength_append (a b : List Char) :
    byteLength (a ++ b) = byteLength a + byteLength b := by
  induction a with
  | nil => simp
  | cons c a ih => simp [ih, Nat.add_assoc]

theorem length_le_byteLength (text : List Char) : text.length ≤ byteLength text := by
  induction text with
  | nil => simp
  | cons c text ih => have := c.utf8Size_pos; simp; omega

/-- A place in a text. -/
structure Cursor where
  /-- The character that ends at the place; none at the start of the text. -/
  before : Option Char
  /-- The text from the place on. -/
  rest : List Char
deriving DecidableEq, Repr

namespace Cursor

/-- The place before the first character. -/
def start (text : List Char) : Cursor :=
  ⟨none, text⟩

/-- The place `n` characters further on, or the end of the text. -/
def advance (place : Cursor) (n : Nat) : Cursor :=
  ⟨(place.rest.take n).getLast?.or place.before, place.rest.drop n⟩

@[simp] theorem advance_rest (place : Cursor) (n : Nat) :
    (place.advance n).rest = place.rest.drop n := rfl

@[simp] theorem advance_zero (place : Cursor) : place.advance 0 = place := by
  simp [advance]

/-- The place `offset` bytes further on, unless the text ends before it or it falls inside a
character. -/
def seek? (before : Option Char) : List Char → Nat → Option Cursor
  | rest, 0 => some ⟨before, rest⟩
  | [], _ + 1 => none
  | c :: rest, n + 1 =>
    if c.utf8Size ≤ n + 1 then seek? (some c) rest (n + 1 - c.utf8Size) else none

/-- The place at a byte offset of the text. -/
def atOffset? (text : List Char) (offset : Nat) : Option Cursor :=
  seek? none text offset

theorem seek?_eq_some_iff {before : Option Char} {text : List Char} {n : Nat} {place : Cursor} :
    seek? before text n = some place ↔
      ∃ skipped, text = skipped ++ place.rest ∧ byteLength skipped = n ∧
        place.before = skipped.getLast?.or before := by
  fun_induction seek? before text n with
  | case1 before rest =>
    constructor
    · rintro ⟨⟩
      exact ⟨[], by simp⟩
    · rintro ⟨skipped, htext, hlen, hbefore⟩
      have hnil : skipped = [] := by
        have := length_le_byteLength skipped
        exact List.eq_nil_of_length_eq_zero (by omega)
      subst hnil
      cases place
      simp_all
  | case2 before n =>
    simp only [reduceCtorEq, false_iff, not_exists, not_and]
    intro skipped htext hlen
    have := List.append_eq_nil_iff.1 htext.symm
    simp [this.1] at hlen
  | case3 before c rest n hsize ih =>
    rw [ih]
    constructor
    · rintro ⟨skipped, rfl, hlen, hbefore⟩
      refine ⟨c :: skipped, rfl, ?_, ?_⟩
      · simp only [byteLength_cons]; omega
      · rw [hbefore]
        cases skipped <;> simp [List.getLast?_cons]
    · rintro ⟨skipped, htext, hlen, hbefore⟩
      cases skipped with
      | nil => simp at hlen
      | cons d skipped =>
        obtain ⟨rfl, rfl⟩ : c = d ∧ rest = skipped ++ place.rest := by simpa using htext
        refine ⟨skipped, rfl, ?_, ?_⟩
        · simp only [byteLength_cons] at hlen; omega
        · rw [hbefore]
          cases skipped <;> simp [List.getLast?_cons]
  | case4 before c rest n hsize =>
    simp only [reduceCtorEq, false_iff, not_exists, not_and]
    intro skipped htext hlen
    cases skipped with
    | nil => simp at hlen
    | cons d skipped =>
      obtain ⟨rfl, -⟩ : c = d ∧ rest = skipped ++ place.rest := by simpa using htext
      simp only [byteLength_cons] at hlen
      omega

/-- An offset names the place after the text of its length. -/
theorem atOffset?_eq_some_iff {text : List Char} {n : Nat} {place : Cursor} :
    atOffset? text n = some place ↔
      ∃ skipped, text = skipped ++ place.rest ∧ byteLength skipped = n ∧
        place.before = skipped.getLast? := by
  simp [atOffset?, seek?_eq_some_iff]

end Cursor

end HangulScript.Text
