import HangulScript.Conversion.Pass
import HangulScript.Text.Blank
import HangulScript.Text.Word

/-!
# Methods without `function`

A pass that drops the word `function` where a member of a class body begins. It follows braces
only: the first brace after the word `class` opens a class body, and the braces inside one belong
to it.
-/

namespace HangulScript

open Text

namespace Methods

/-- What an open brace encloses. -/
inductive Brace
  | classBody
  | other
deriving DecidableEq, Repr

/-- What the pass knows at a place. -/
structure State where
  /-- The open braces, the innermost first. -/
  braces : List Brace
  /-- A `class` still waits for the brace of its body. -/
  classAhead : Bool
  /-- The last character written that is not blank. -/
  lastSolid : Option Char
deriving DecidableEq, Repr

/-- A member or a statement can begin after this character. -/
def canBeginMember : Option Char → Bool
  | none | some '{' | some ';' | some '}' | some '.' => true
  | _ => false

/-- The last character that is not blank, after `text` has been written. -/
def lastSolidAfter (before : Option Char) (text : List Char) : Option Char :=
  (text.filter (!isBlank ·)).getLast?.or before

def classWord : List Char := "class".toList

def functionWord : List Char := "function".toList

/-- What stands before the word `function` of an asynchronous method. -/
def asyncLead : List Char := "async ".toList

/-- The word `function` at the beginning of the text, with the space after it if there is one. -/
def elision (rest : List Char) : List Char :=
  rest.take (if (rest.drop functionWord.length).head? = some ' ' then functionWord.length + 1
    else functionWord.length)

/-- A member of a class body can begin in this state. -/
def State.atMember (state : State) : Bool :=
  state.braces.head? = some .classBody && canBeginMember state.lastSolid

/-- The edit at a place: inside a class body `function` is dropped where a member begins, and an
`async` before it is kept. -/
def edit (state : State) (place : Cursor) : Edit :=
  if place.holdsWord classWord then .copy (place.rest.take classWord.length)
  else if state.atMember && place.holdsWord (asyncLead ++ functionWord) then
    ⟨place.rest.take asyncLead.length, elision (place.rest.drop asyncLead.length), []⟩
  else if state.atMember && place.holdsWord functionWord then ⟨[], elision place.rest, []⟩
  else .copy (place.rest.take 1)

/-- The open braces after the place, and whether a `class` waits for one. -/
def State.enter (state : State) (place : Cursor) : State :=
  if place.holdsWord classWord then { state with classAhead := true }
  else match place.rest.head? with
    | some '{' =>
      let brace := if state.classAhead then .classBody else state.braces.headD .other
      { state with braces := brace :: state.braces, classAhead := false }
    | some '}' => { state with braces := state.braces.tail }
    | _ => state

/-- A step of the pass. -/
def step (state : State) (place : Cursor) : Edit × State :=
  let made := edit state place
  (made, { state.enter place with lastSolid := lastSolidAfter state.lastSolid made.written })

theorem elision_prefix (rest : List Char) : elision rest <+: rest :=
  List.take_prefix _ rest

theorem take_ne_nil {rest : List Char} {n : Nat} (hn : n ≠ 0) (h : rest ≠ []) :
    rest.take n ≠ [] := fun htake =>
  (List.take_eq_nil_iff.1 htake).elim hn h

theorem elision_ne_nil {rest : List Char} (h : rest ≠ []) : elision rest ≠ [] := by
  unfold elision
  split
  · exact take_ne_nil (Nat.succ_ne_zero _) h
  · exact take_ne_nil (by decide) h

theorem edit_consumed_prefix (state : State) (place : Cursor) :
    (edit state place).consumed <+: place.rest := by
  unfold edit
  split
  · simpa using List.take_prefix _ place.rest
  split
  · obtain ⟨after, hafter⟩ := elision_prefix (place.rest.drop asyncLead.length)
    refine ⟨after, ?_⟩
    simp only [Edit.consumed, List.append_assoc, hafter, List.take_append_drop]
  split
  · simpa [Edit.consumed] using elision_prefix place.rest
  · simpa using List.take_prefix _ place.rest

theorem edit_consumed_ne_nil (state : State) {place : Cursor} (h : place.rest ≠ []) :
    (edit state place).consumed ≠ [] := by
  unfold edit
  split
  · simpa using take_ne_nil (n := classWord.length) (by decide) h
  split
  · exact List.append_ne_nil_of_left_ne_nil (take_ne_nil (by decide) h) _
  split
  · simpa [Edit.consumed] using elision_ne_nil h
  · simpa using h

end Methods

/-- The pass that drops `function` from methods. -/
def methodPass : Pass Methods.State where
  start := ⟨[], false, none⟩
  step := Methods.step
  consumed_prefix := Methods.edit_consumed_prefix
  consumed_ne_nil state _ := Methods.edit_consumed_ne_nil state

/-- The text with `function` dropped from the methods of its classes. -/
def bareMethods (source : List Char) : List Char :=
  (methodPass.run source).output

end HangulScript
