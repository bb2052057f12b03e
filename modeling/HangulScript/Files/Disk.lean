import HangulScript.Files.Error
import HangulScript.Path.Basic

/-!
# Disks

The file operations that a command needs, in any monad that can carry them out.
-/

namespace HangulScript

/-- Reading and writing files. -/
structure Disk (m : Type → Type) where
  read : Path → m (Except FileError ByteArray)
  /-- Creates a directory and those around it; one that is there already is fine. -/
  createDirectories : Path → m (Except FileError Unit)
  /-- Creates a file or replaces its content. -/
  write : Path → ByteArray → m (Except FileError Unit)

end HangulScript
