import HangulScript.Command.Log
import HangulScript.Files.Disk

/-!
# Compiling files

A source file is read, converted and written to the place of its TypeScript. Several files are
compiled in order, and the first failure ends the run.
-/

namespace HangulScript

/-- Why a file cannot be read or compiled. -/
inductive CompileError
  | overwrites (input : Path)
  | unreadable (input : Path) (cause : FileError)
  | uncreatable (directory : Path) (cause : FileError)
  | unwritable (output : Path) (cause : FileError)
  | aborted (abort : Abort)
deriving DecidableEq

namespace CompileError

/-- What went wrong, and below it why. -/
def messages : CompileError → List (List Char)
  | overwrites input => ["refusing to overwrite input file ".toList ++ input.text]
  | unreadable input cause => ["failed to read ".toList ++ input.text, cause.message]
  | uncreatable directory cause => ["failed to create ".toList ++ directory.text, cause.message]
  | unwritable output cause => ["failed to write ".toList ++ output.text, cause.message]
  | aborted _ => []

end CompileError

/-- The bytes of a text. -/
def bytesOfText (text : List Char) : ByteArray :=
  (String.ofList text).toUTF8

/-- The text that bytes spell. -/
def textOfBytes? (bytes : ByteArray) : Option (List Char) :=
  (String.fromUTF8? bytes).map String.toList

variable {m : Type → Type} [Monad m]

/-- The text of a source file. -/
def Disk.readText (disk : Disk m) (input : Path) : m (Except CompileError (List Char)) := do
  match ← disk.read input with
  | .error cause => return .error (.unreadable input cause)
  | .ok bytes =>
    match textOfBytes? bytes with
    | none => return .error (.unreadable input .invalidText)
    | some source => return .ok source

/-- Creates the directories around a file. -/
def Disk.createAround (disk : Disk m) (output : Path) : m (Except CompileError Unit) := do
  match output.parent? with
  | none => return .ok ()
  | some directory =>
    if directory.text = [] then return .ok ()
    else match ← disk.createDirectories directory with
      | .ok () => return .ok ()
      | .error cause => return .error (.uncreatable directory cause)

/-- Writes a text to a file, and the directories around it. -/
def Disk.store (disk : Disk m) (output : Path) (text : List Char) :
    m (Except CompileError Unit) := do
  match ← disk.createAround output with
  | .error e => return .error e
  | .ok () =>
    match ← disk.write output (bytesOfText text) with
    | .ok () => return .ok ()
    | .error cause => return .error (.unwritable output cause)

/-- What compiling told, and what came of it. -/
structure Compilation (α : Type) where
  events : List LogEvent
  outcome : Except CompileError α

/-- Compiles the file at `input` to the one at `output`, and gives the text that was written. A file
is not written over itself. -/
def Disk.compile (disk : Disk m) (input output : Path) : m (Compilation (List Char)) := do
  if input.sameAs output then return ⟨[], .error (.overwrites input)⟩
  else match ← disk.readText input with
    | .error e => return ⟨[], .error e⟩
    | .ok source =>
      match convert {} source with
      | .error abort => return ⟨[], .error (.aborted abort)⟩
      | .ok done =>
        match ← disk.store output done.text with
        | .error e => return ⟨done.events, .error e⟩
        | .ok () => return ⟨done.events, .ok done.text⟩

/-- Compiles files in order up to the first failure, and gives the places written to. -/
def Disk.compileAll (disk : Disk m) (directory : Option Path) :
    List Path → m (Compilation (List Path))
  | [] => return ⟨[], .ok []⟩
  | input :: rest => do
    let output := input.generated directory
    let first ← disk.compile input output
    match first.outcome with
    | .error e => return ⟨first.events, .error e⟩
    | .ok _ =>
      let others ← disk.compileAll directory rest
      return ⟨first.events ++ others.events, others.outcome.map (output :: ·)⟩

end HangulScript
