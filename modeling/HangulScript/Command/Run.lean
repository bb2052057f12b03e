import HangulScript.Command.Arguments
import HangulScript.Command.Outcome
import HangulScript.TypeScript.Findings

/-!
# Running the command
-/

namespace HangulScript

/-- The filter that the environment asks for: the command's own variable, else the general one.
Without either nothing is shown. -/
def logFilter (own general : Option (List Char)) : LogFilter :=
  ((own.or general).map LogFilter.ofText).getD []

variable {m : Type → Type} [Monad m]

/-- Does what the settings ask for. -/
def runSettings (disk : Disk m) (inspect : Inspector) (filter : LogFilter) (settings : Settings) :
    m Outcome :=
  if settings.check then runCheck disk inspect filter settings.json settings.inputs
  else runCompile disk filter settings.outDir settings.inputs

/-- Runs the command with the given arguments. -/
def runCommand (disk : Disk m) (filter : LogFilter) (arguments : List (List Char)) : m Outcome :=
  match Arguments.read arguments with
  | .error e => return ⟨Outcome.misuse, [], e.report⟩
  | .ok .help => return ⟨Outcome.success, helpText, []⟩
  | .ok .version => return ⟨Outcome.success, versionText, []⟩
  | .ok (.run settings) => runSettings disk TypeScript.findings filter settings

end HangulScript
