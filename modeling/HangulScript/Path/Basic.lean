/-!
# Paths

A path is a text of names between slashes. Equality of places is equality of components, which
leaves out repeated slashes, slashes at the end and the names `.` that do not begin the path.
-/

namespace HangulScript

/-- A path as it is written. -/
structure Path where
  text : List Char
deriving DecidableEq, Repr

namespace Path

/-- One part of a path. -/
inductive Component
  | root
  /-- A `.` at the beginning of a relative path. -/
  | current
  | parent
  | name (text : List Char)
deriving DecidableEq, Repr

def ofString (text : String) : Path :=
  ⟨text.toList⟩

/-- The path begins at the root. -/
def isAbsolute (path : Path) : Bool :=
  path.text.head? = some '/'

/-- The texts between the slashes, empty ones included. -/
def pieces : List Char → List (List Char)
  | [] => [[]]
  | c :: rest =>
    if c = '/' then [] :: pieces rest
    else match pieces rest with
      | [] => [[c]]
      | piece :: others => (c :: piece) :: others

/-- The component that a piece stands for, unless it stands for nothing. -/
def component? (piece : List Char) : Option Component :=
  if piece = [] ∨ piece = ['.'] then none
  else if piece = ['.', '.'] then some .parent
  else some (.name piece)

/-- The parts of the path. -/
def components (path : Path) : List Component :=
  let parts := pieces path.text
  let front :=
    if path.isAbsolute then [.root] else if parts.head? = some ['.'] then [.current] else []
  front ++ parts.filterMap component?

/-- The two paths are made of the same components. -/
def sameAs (a b : Path) : Bool :=
  a.components = b.components

/-! ## The last name -/

/-- Drops slashes and names `.` from the end of a text that is given backwards. -/
def dropTrailing : List Char → List Char
  | '/' :: rest => dropTrailing rest
  | '.' :: '/' :: rest => dropTrailing rest
  | rest => rest

/-- The text without the slashes and the names `.` at its end. -/
def trimmed (text : List Char) : List Char :=
  (dropTrailing text.reverse).reverse

/-- The text up to its last slash, which is included. -/
def beforeLastName (text : List Char) : List Char :=
  (text.reverse.dropWhile (· ≠ '/')).reverse

/-- The text after its last slash. -/
def lastName (text : List Char) : List Char :=
  (text.reverse.takeWhile (· ≠ '/')).reverse

/-- The name of the file that the path ends with; `..` names none. -/
def fileName? (path : Path) : Option (List Char) :=
  let name := lastName (trimmed path.text)
  if name = [] ∨ name = ['.'] ∨ name = ['.', '.'] then none else some name

/-- A name up to its last dot, and what follows the dot. A name without a dot, or with none but at
its beginning, has no extension. -/
def splitName (name : List Char) : List Char × Option (List Char) :=
  match (name.reverse.dropWhile (· ≠ '.')).tail with
  | [] => (name, none)
  | stem => (stem.reverse, some (name.reverse.takeWhile (· ≠ '.')).reverse)

/-- The name of the file without its extension. -/
def stem? (path : Path) : Option (List Char) :=
  path.fileName?.map fun name => (splitName name).1

/-- The path of the directory that holds the last component; the root and the empty path have
none. -/
def parent? (path : Path) : Option Path :=
  let base := trimmed path.text
  let directory := trimmed (beforeLastName base)
  if base = [] then none
  else if directory = [] ∧ path.isAbsolute then some ⟨['/']⟩
  else some ⟨directory⟩

/-! ## New paths -/

/-- The path with the extension of its last name replaced. A path without a file name stays as it
is. A name that begins with two dots and has nothing else before its last one is cut to `..`. -/
def withExtension (path : Path) (extension : List Char) : Path :=
  match path.fileName? with
  | none => path
  | some name =>
    let base := trimmed path.text
    let stem := (splitName name).1
    if stem = ['.'] ∧ base = path.text then ⟨beforeLastName base ++ ['.', '.']⟩
    else ⟨beforeLastName base ++ stem ++ '.' :: extension⟩

/-- The path of `name` in the directory; an absolute name stands for itself. -/
def join (directory : Path) (name : List Char) : Path :=
  if name.head? = some '/' then ⟨name⟩
  else if directory.text = [] ∨ directory.text.getLast? = some '/' then ⟨directory.text ++ name⟩
  else ⟨directory.text ++ '/' :: name⟩

/-! ## Ancestors -/

theorem length_dropTrailing_le (text : List Char) : (dropTrailing text).length ≤ text.length := by
  fun_induction dropTrailing text with
  | case1 rest ih => exact Nat.le_succ_of_le ih
  | case2 rest ih => exact Nat.le_succ_of_le (Nat.le_succ_of_le ih)
  | case3 => exact Nat.le_refl _

theorem length_trimmed_le (text : List Char) : (trimmed text).length ≤ text.length := by
  simpa [trimmed] using length_dropTrailing_le text.reverse

theorem dropTrailing_head (text : List Char) : (dropTrailing text).head? ≠ some '/' := by
  fun_induction dropTrailing text with
  | case1 rest ih => exact ih
  | case2 rest ih => exact ih
  | case3 rest h1 h2 =>
    cases rest with
    | nil => simp
    | cons c rest => simpa using fun h : c = '/' => h1 rest (by rw [h])

/-- The last name of a trimmed text is not empty, so less remains before it. -/
theorem length_beforeLastName_lt {text : List Char} (h : trimmed text ≠ []) :
    (beforeLastName (trimmed text)).length < (trimmed text).length := by
  have hhead := dropTrailing_head text.reverse
  simp only [trimmed, beforeLastName, List.reverse_reverse, List.length_reverse] at h ⊢
  cases hrest : dropTrailing text.reverse with
  | nil => simp [hrest] at h
  | cons c rest =>
    have hc : c ≠ '/' := by simpa [hrest] using hhead
    have hle := (List.dropWhile_sublist (l := rest) (fun d => decide (d ≠ '/'))).length_le
    simp only [List.dropWhile_cons, ne_eq, hc, not_false_eq_true, decide_true, if_true,
      List.length_cons]
    exact Nat.lt_succ_of_le hle

theorem length_parent?_lt {path parent : Path} (h : path.parent? = some parent) :
    parent.text.length < path.text.length := by
  have hbase := length_trimmed_le path.text
  have htrim := length_trimmed_le (beforeLastName (trimmed path.text))
  simp only [parent?] at h
  split at h
  · simp at h
  · next hne =>
    have hlast := length_beforeLastName_lt hne
    split at h
    · next habs =>
      obtain rfl := Option.some.inj h
      have hslash : path.text.head? = some '/' := by simpa [isAbsolute] using habs.2
      match htext : path.text with
      | [] => simp [htext] at hslash
      | [c] =>
        obtain rfl : c = '/' := by simpa [htext] using hslash
        exact absurd (by simp [htext, trimmed, dropTrailing]) hne
      | _ :: _ :: _ => simp
    · obtain rfl := Option.some.inj h
      show (trimmed (beforeLastName (trimmed path.text))).length < _
      omega

/-- The path and the directories around it, from the inside outwards. -/
def ancestors (path : Path) : List Path :=
  match _h : path.parent? with
  | none => [path]
  | some parent => path :: parent.ancestors
termination_by path.text.length
decreasing_by exact length_parent?_lt _h

end Path

end HangulScript
