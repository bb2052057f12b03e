import HangulScript.Command.Compile

/-!
# Outcomes

What a run of the command leaves for its caller: the two streams of text and the exit status.
-/

namespace HangulScript

/-- The texts that a run printed, and its exit status. -/
structure Outcome where
  status : Nat
  output : List Char
  errors : List Char
deriving DecidableEq, Repr

namespace Outcome

/-- The status of a run that did what it was asked to. -/
def success : Nat := 0

/-- The status of a run that failed, or found something. -/
def failure : Nat := 1

/-- The status of a run that was asked wrongly. -/
def misuse : Nat := 2

/-- The status of a run that was broken off. -/
def broken : Nat := 101

end Outcome

/-- The text in which a failure is reported. -/
def CompileError.report (e : CompileError) : List Char :=
  match e.messages with
  | [] => []
  | outer :: causes =>
    "Error: ".toList ++ outer ++ ['\n'] ++
      match causes with
      | [] => []
      | causes =>
        "\nCaused by:\n".toList ++ causes.flatMap fun cause => "    ".toList ++ cause ++ ['\n']

/-- The status that a failure leads to. -/
def CompileError.status : CompileError → Nat
  | aborted _ => Outcome.broken
  | _ => Outcome.failure

/-- The line that announces a generated file. -/
def createdLine (output : Path) : List Char :=
  "✅ ".toList ++ output.text ++ " 생성됨\n".toList

/-- The line of a source without errors. -/
def faultlessLine (input : Path) : List Char :=
  "✅ ".toList ++ input.text ++ " 문제 없음\n".toList

variable {m : Type → Type} [Monad m]

/-- Compiles files and announces them, if all went well. -/
def runCompile (disk : Disk m) (filter : LogFilter) (directory : Option Path)
    (inputs : List Path) : m Outcome := do
  let done ← disk.compileAll directory inputs
  let log := filter.lines done.events
  match done.outcome with
  | .error e => return ⟨e.status, [], log ++ e.report⟩
  | .ok outputs => return ⟨Outcome.success, outputs.flatMap createdLine, log⟩

/-! ## Checking -/

/-- What checking some sources printed line by line, and how it went on to the end. -/
structure CheckRun where
  output : List Char
  errors : List Char
  outcome : Except CompileError (List Report)

/-- What is printed of one report line by line. -/
def printedReport (input : Path) (report : Report) : List Char × List Char :=
  if report.isFaulty then ([], report.formatted ++ ['\n']) else (faultlessLine input, [])

/-- Checks sources in order up to the first that cannot be read. With `asJson`, no line is printed
on the way. -/
def checkAll (disk : Disk m) (inspect : Inspector) (filter : LogFilter) (asJson : Bool) :
    List Path → m CheckRun
  | [] => return ⟨[], [], .ok []⟩
  | input :: rest => do
    match ← disk.readText input with
    | .error e => return ⟨[], [], .error e⟩
    | .ok source =>
      match Checked.ofSource inspect source input.text with
      | .error abort => return ⟨[], [], .error (.aborted abort)⟩
      | .ok checked =>
        let printed := if asJson then ([], []) else printedReport input checked.report
        let others ← checkAll disk inspect filter asJson rest
        return ⟨printed.1 ++ others.output,
          filter.lines checked.events ++ printed.2 ++ others.errors,
          others.outcome.map (checked.report :: ·)⟩

/-- Checks sources and fails when one of them has errors. With `asJson`, the reports are printed as
one JSON array, unless a source cannot be read. -/
def runCheck (disk : Disk m) (inspect : Inspector) (filter : LogFilter) (asJson : Bool)
    (inputs : List Path) : m Outcome := do
  let done ← checkAll disk inspect filter asJson inputs
  match done.outcome with
  | .error e => return ⟨e.status, done.output, done.errors ++ e.report⟩
  | .ok reports =>
    let status := if reports.any Report.isFaulty then Outcome.failure else Outcome.success
    let array := if asJson then Report.pretty reports ++ ['\n'] else []
    return ⟨status, done.output ++ array, done.errors⟩

end HangulScript
