import HangulScript.Command.Run

/-!
# The command

Runs the command on the files of the machine.
-/

namespace HangulScript

/-- The failure that the machine reports. -/
def fileErrorOf : IO.Error → FileError
  | .noFileOrDirectory .. | .noSuchThing .. => .missing
  | .alreadyExists .. => .alreadyThere
  | .inappropriateType _ 20 _ => .notDirectory
  | .inappropriateType .. => .isDirectory
  | .invalidArgument _ 36 _ => .nameTooLong
  | e => .other e.toString.toList

/-- The result of an operation on the machine. -/
def attempt {α : Type} (action : IO α) : IO (Except FileError α) := do
  match ← action.toBaseIO with
  | .ok value => return .ok value
  | .error e => return .error (fileErrorOf e)

/-- The machine's own files. -/
def machine : Disk IO where
  read path := attempt (IO.FS.readBinFile (String.ofList path.text))
  createDirectories path := attempt (IO.FS.createDirAll (String.ofList path.text))
  write path content := attempt (IO.FS.writeBinFile (String.ofList path.text) content)

end HangulScript

open HangulScript in
def main (arguments : List String) : IO UInt32 := do
  let own ← IO.getEnv "KSC_LOG"
  let general ← IO.getEnv "RUST_LOG"
  let filter := logFilter (own.map String.toList) (general.map String.toList)
  let outcome ← runCommand machine filter (arguments.map String.toList)
  IO.print (String.ofList outcome.output)
  IO.eprint (String.ofList outcome.errors)
  return outcome.status.toUInt32
