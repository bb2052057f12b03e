import HangulScript.Files.Disk
import HangulScript.Text.Cursor

/-!
# File trees

A tree of directories and files without links, with a working directory. Paths are followed one name
at a time. `get?_put` says what a change of one place does to every place.
-/

namespace HangulScript

open Text

/-- A place in a tree: the names on the way from the root. -/
abbrev Location := List (List Char)

/-- What stands at a place. -/
inductive Entry
  | directory
  | file (content : ByteArray)

instance : DecidableEq Entry
  | .directory, .directory => isTrue rfl
  | .directory, .file _ => isFalse nofun
  | .file _, .directory => isFalse nofun
  | .file a, .file b =>
    decidable_of_iff (a.data = b.data) ⟨fun h => congrArg Entry.file (ByteArray.ext h), by rintro ⟨⟩; rfl⟩

/-- The entries of a tree, each with its place. The root needs no entry. -/
structure FileTree where
  workingDirectory : Location
  entries : List (Location × Entry)

namespace FileTree

/-- What stands at a place; the root is a directory. -/
def get? (tree : FileTree) (place : Location) : Option Entry :=
  if place = [] then some .directory else tree.entries.lookup place

/-- The tree with an entry put at a place. -/
def put (tree : FileTree) (place : Location) (entry : Entry) : FileTree :=
  { tree with entries := (place, entry) :: tree.entries.filter (·.1 ≠ place) }

theorem get?_put {tree : FileTree} {place other : Location} {entry : Entry} (h : place ≠ []) :
    (tree.put place entry).get? other = if other = place then some entry else tree.get? other := by
  by_cases hroot : other = []
  · have : other ≠ place := fun heq => h (heq ▸ hroot)
    simp [get?, hroot, Ne.symm h]
  · by_cases heq : other = place
    · simp [get?, put, heq, h]
    · simp only [get?, put, hroot, heq, if_false, List.lookup_cons,
        beq_eq_false_iff_ne.2 heq]
      induction tree.entries with
      | nil => rfl
      | cons e entries ih =>
        by_cases hkey : e.1 = place
        · rw [List.filter_cons_of_neg (by simpa using hkey), ih, List.lookup_cons,
            beq_eq_false_iff_ne.2 (fun he => heq (he.trans hkey))]
        · rw [List.filter_cons_of_pos (by simpa using hkey), List.lookup_cons, List.lookup_cons, ih]

/-! ## Following paths -/

/-- The most bytes that a name can have. -/
def maxNameLength : Nat := 255

/-- A path must have fewer bytes than this. -/
def pathLimit : Nat := 4096

/-- Follows one piece of a path from a place. -/
def enter (tree : FileTree) (place : Location) (piece : List Char) : Except FileError Location :=
  if tree.get? place ≠ some .directory then .error .notDirectory
  else if piece = [] ∨ piece = ['.'] then .ok place
  else if piece = ['.', '.'] then .ok place.dropLast
  else if maxNameLength < byteLength piece then .error .nameTooLong
  else if tree.get? (place ++ [piece]) = none then .error .missing
  else .ok (place ++ [piece])

/-- Where a path begins. -/
def origin (tree : FileTree) (path : Path) : Except FileError Location :=
  if path.text.contains '\x00' then .error .nulInPath
  else if path.text = [] then .error .missing
  else if pathLimit ≤ byteLength path.text then .error .nameTooLong
  else .ok (if path.isAbsolute then [] else tree.workingDirectory)

/-- The place that a path leads to. -/
def resolve (tree : FileTree) (path : Path) : Except FileError Location := do
  (Path.pieces path.text).foldlM tree.enter (← tree.origin path)

/-- The path leads to a directory. -/
def isDirectory (tree : FileTree) (path : Path) : Bool :=
  match tree.resolve path with
  | .ok place => tree.get? place = some .directory
  | .error _ => false

/-- The place that the last name of a path stands for, whether anything is there or not. -/
structure Target where
  directory : Location
  /-- None when the path ends with the root, `.` or `..`. -/
  name : Option (List Char)
  /-- A slash follows the name. -/
  slash : Bool

/-- Follows a path up to its last name. -/
def target (tree : FileTree) (path : Path) : Except FileError Target := do
  let pieces := Path.pieces path.text
  let named := (pieces.reverse.dropWhile (· = [])).reverse
  let directory ← named.dropLast.foldlM tree.enter (← tree.origin path)
  if tree.get? directory ≠ some .directory then throw .notDirectory
  match named.getLast? with
  | none => return ⟨directory, none, true⟩
  | some name =>
    return ⟨directory, if name = ['.'] ∨ name = ['.', '.'] then none else some name,
      named.length < pieces.length⟩

/-! ## Operations -/

/-- The content of the file that a path leads to. -/
def read (tree : FileTree) (path : Path) : Except FileError ByteArray := do
  match tree.get? (← tree.resolve path) with
  | some (.file content) => return content
  | some .directory => throw .isDirectory
  | none => throw .missing

/-- The tree with a new directory. -/
def createDirectory (tree : FileTree) (path : Path) : Except FileError FileTree := do
  let target ← tree.target path
  match target.name with
  | none => throw .alreadyThere
  | some name =>
    if maxNameLength < byteLength name then throw .nameTooLong
    let place := target.directory ++ [name]
    if tree.get? place ≠ none then throw .alreadyThere
    return tree.put place .directory

/-- The tree with a file of the given content. -/
def write (tree : FileTree) (path : Path) (content : ByteArray) : Except FileError FileTree := do
  let target ← tree.target path
  match target.name, target.slash with
  | some name, false =>
    if maxNameLength < byteLength name then throw .nameTooLong
    let place := target.directory ++ [name]
    if tree.get? place = some .directory then throw .isDirectory
    return tree.put place (.file content)
  | _, _ => throw .isDirectory

/-- Creates the first directory of a list in which each is followed by the one around it, and those
around it where they are missing. -/
def createInside (tree : FileTree) : List Path → Except FileError Unit × FileTree
  | [] => (.error .missing, tree)
  | path :: around =>
    if path.text = [] then (.ok (), tree)
    else match tree.createDirectory path with
      | .ok created => (.ok (), created)
      | .error .missing =>
        match tree.createInside around with
        | (.error e, tree) => (.error e, tree)
        | (.ok (), tree) =>
          match tree.createDirectory path with
          | .ok created => (.ok (), created)
          | .error e => (if tree.isDirectory path then .ok () else .error e, tree)
      | .error e => (if tree.isDirectory path then .ok () else .error e, tree)

/-- Creates a directory and those around it where they are missing. -/
def createDirectories (tree : FileTree) (path : Path) : Except FileError Unit × FileTree :=
  tree.createInside path.ancestors

/-- The tree with directories at the given places where nothing is. -/
def addDirectories (tree : FileTree) (places : List Location) : FileTree :=
  places.foldl (fun tree place =>
    if tree.get? place = none then tree.put place .directory else tree) tree

/-- The tree with an entry at a place, and with the directories around it. -/
def add (tree : FileTree) (place : Location) (entry : Entry) : FileTree :=
  let grown := tree.addDirectories ((List.range place.length).map place.take)
  match entry with
  | .directory => grown.addDirectories [place]
  | .file _ => grown.put place entry

/-- The disk that a tree is. -/
def disk : Disk (StateM FileTree) where
  read path := return (← get).read path
  createDirectories path := modifyGet fun tree => tree.createDirectories path
  write path content := modifyGet fun tree =>
    match tree.write path content with
    | .ok changed => (.ok (), changed)
    | .error e => (.error e, tree)

end FileTree

end HangulScript
