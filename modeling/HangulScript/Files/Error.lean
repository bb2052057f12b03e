/-!
# Failures of file operations
-/

namespace HangulScript

/-- Why a file operation fails. -/
inductive FileError
  | missing
  | alreadyThere
  | notDirectory
  | isDirectory
  | nameTooLong
  /-- The path holds a NUL character. -/
  | nulInPath
  /-- The bytes of the file are no UTF-8. -/
  | invalidText
  | other (text : List Char)
deriving DecidableEq, Repr

/-- The message of a failure. -/
def FileError.message : FileError → List Char
  | missing => "No such file or directory (os error 2)".toList
  | alreadyThere => "File exists (os error 17)".toList
  | notDirectory => "Not a directory (os error 20)".toList
  | isDirectory => "Is a directory (os error 21)".toList
  | nameTooLong => "File name too long (os error 36)".toList
  | nulInPath => "file name contained an unexpected NUL byte".toList
  | invalidText => "stream did not contain valid UTF-8".toList
  | other text => text

end HangulScript
