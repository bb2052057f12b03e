import HangulScript.Path.Basic
import HangulScript.Text.Similarity

/-!
# Arguments of the command

Reads the arguments from left to right. Values are taken in when the next option, the next kind of
argument or the end comes, and then checked; what contradicts or is left out is found at the end.
-/

namespace HangulScript

/-- The options. -/
inductive Flag
  | outDir
  | check
  | json
  | help
  | version
deriving DecidableEq, Repr

/-- What a run is asked to do. -/
structure Settings where
  inputs : List Path
  outDir : Option Path
  check : Bool
  json : Bool
deriving DecidableEq, Repr

/-- What the arguments ask for. -/
inductive Request
  | run (settings : Settings)
  | help
  | version
deriving DecidableEq, Repr

/-- What an error names: an option or the input files. -/
inductive Argument
  | flag (flag : Flag)
  | inputs
deriving DecidableEq, Repr

/-- Why arguments are refused. `given` are the options that the usage shows; without them it is the
general usage. -/
inductive ArgumentError
  | required (missing : List Argument) (given : List Flag)
  | conflict (first second : Flag) (given : List Flag)
  | valueMissing (argument : Argument)
  | repeated (flag : Flag)
  | unknown (text : List Char) (similar : Option Flag) (given : Option (List Flag))
  | valueUnexpected (value : List Char) (flag : Flag) (given : List Flag)
deriving DecidableEq, Repr

namespace Flag

/-- The long spelling, without its dashes. -/
def name : Flag → List Char
  | outDir => "out-dir".toList
  | check => "check".toList
  | json => "json".toList
  | help => "help".toList
  | version => "version".toList

def all : List Flag :=
  [outDir, check, json, help, version]

def ofName? (name : List Char) : Option Flag :=
  all.find? (·.name = name)

/-- The option that was perhaps meant: the most similar name, the last of several, if it is similar
enough. -/
def similar? (name : List Char) : Option Flag :=
  let likeness (flag : Flag) : Rat := Text.similarity name flag.name
  all.foldl (fun best flag =>
    if 7 / 10 ≤ likeness flag ∧ best.all (likeness · ≤ likeness flag) then some flag else best) none

def ofShort? : Char → Option Flag
  | 'o' => some outDir
  | 'h' => some help
  | 'V' => some version
  | _ => none

/-- The option in messages. -/
def display : Flag → List Char
  | outDir => "--out-dir <OUT_DIR>".toList
  | flag => "--".toList ++ flag.name

end Flag

/-- The argument in messages. -/
def Argument.display : Argument → List Char
  | flag f => f.display
  | inputs => "<INPUTS>...".toList

/-! ## Reading -/

namespace Arguments

/-- An argument whose values are still being collected. -/
inductive Pending
  | nothing
  | outDir (value : Option (List Char))
  | inputs (values : List (List Char))
deriving DecidableEq, Repr

/-- What has been read. -/
structure State where
  outDir : Option Path
  inputs : List Path
  /-- The options taken in so far, in order. -/
  given : List Flag
  pending : Pending
deriving DecidableEq, Repr

def start : State :=
  ⟨none, [], [], .nothing⟩

/-- Takes an option in, which may be given once. -/
def give (s : State) (flag : Flag) : Except ArgumentError State :=
  if s.given.contains flag then .error (.repeated flag)
  else .ok { s with given := s.given ++ [flag] }

/-- Takes in the values that were collected. -/
def settle (s : State) : Except ArgumentError State :=
  match s.pending with
  | .nothing => .ok s
  | .outDir none => .error (.valueMissing (.flag .outDir))
  | .outDir (some value) => do
    let s ← give { s with pending := .nothing } .outDir
    if value = [] then throw (.valueMissing (.flag .outDir))
    return { s with outDir := some ⟨value⟩ }
  | .inputs values =>
    if values.contains [] then .error (.valueMissing .inputs)
    else .ok { s with inputs := s.inputs ++ values.map Path.mk, pending := .nothing }

/-- What reading an argument leads to. -/
inductive Step
  | next (s : State)
  | done (request : Request)

/-- Takes an option in that has no value after an equals sign. -/
def readFlag (s : State) (flag : Flag) : Except ArgumentError Step := do
  let s ← settle s
  match flag with
  | .help => return .done .help
  | .version => return .done .version
  | .outDir => return .next { s with pending := .outDir none }
  | flag => return .next (← give s flag)

/-- Takes in the option that asks for a directory, with its value in the same argument. -/
def readOutDir (s : State) (value : List Char) : Except ArgumentError Step := do
  return .next { ← settle s with pending := .outDir (some value) }

/-- The options met so far; the last one's value need not have been taken in. -/
def met (s : State) : List Flag :=
  match s.pending with
  | .outDir (some _) => if s.given.contains .outDir then s.given else s.given ++ [.outDir]
  | _ => s.given

/-- An input file has been met. -/
def metInput (s : State) : Bool :=
  !s.inputs.isEmpty || s.pending matches .inputs _

/-- The error for an option that there is not. The usage shows what was met and what was perhaps
meant. -/
def unknownName (s : State) (name : List Char) : ArgumentError :=
  let similar := Flag.similar? name
  let shown := met s ++ similar.toList.filter (!(met s).contains ·)
  .unknown ("--".toList ++ name) similar (if shown = [] && !metInput s then none else some shown)

/-- Reads an argument after its two dashes. -/
def readLong (s : State) (text : List Char) : Except ArgumentError Step :=
  let name := text.takeWhile (· ≠ '=')
  match Flag.ofName? name, text.dropWhile (· ≠ '=') with
  | none, _ => .error (unknownName s name)
  | some flag, [] => readFlag s flag
  | some .outDir, _ :: value => readOutDir s value
  | some flag, _ :: value => .error (.valueUnexpected value flag (s.given ++ [flag]))

/-- Reads the letters of an argument after its single dash. -/
def readShort (s : State) : List Char → Except ArgumentError Step
  | [] => .ok (.next s)
  | c :: rest =>
    match Flag.ofShort? c, rest with
    | none, _ => .error (.unknown ['-', c] none none)
    | some .outDir, '=' :: value => readOutDir s value
    | some .outDir, d :: value => readOutDir s (d :: value)
    | some flag, rest => do
      match ← readFlag s flag with
      | .next s => readShort s rest
      | done => return done

/-- Takes in a value or an input file. -/
def readValue (s : State) (text : List Char) : Except ArgumentError State :=
  match s.pending with
  | .inputs values => .ok { s with pending := .inputs (values ++ [text]) }
  | _ => do return { ← settle s with pending := .inputs [text] }

/-! ## Contradictions and omissions -/

/-- The two options that exclude each other, in the order in which they were given. -/
def conflict? (given : List Flag) : Option (Flag × Flag) :=
  match given.filter fun flag => flag = .outDir ∨ flag = .check with
  | [first, second] => some (first, second)
  | _ => none

/-- What is required and was left out. `--json` asks for `--check`, unless an option is there that
excludes it. -/
def missing (s : State) : List Argument :=
  (if s.given.contains .json && !s.given.contains .check && !s.given.contains .outDir then
    [Argument.flag .check] else []) ++
  if s.inputs.isEmpty then [.inputs] else []

/-- The options of a usage that lists what is required: `--check` first, when `--json` asks for it.
-/
def givenOrRequired (given : List Flag) : List Flag :=
  if given.contains .json then .check :: given.filter (· ≠ .check) else given

/-- Ends the reading. -/
def finish (s : State) : Except ArgumentError Request := do
  let s ← settle s
  match conflict? s.given with
  | some (first, second) => throw (.conflict first second (s.given.filter (· ≠ second)))
  | none =>
    if missing s = [] then
      return .run ⟨s.inputs, s.outDir, s.given.contains .check, s.given.contains .json⟩
    else throw (.required (missing s) (givenOrRequired s.given))

/-- Reads the arguments that are left. After `--` all of them are input files. -/
def readFrom (s : State) (onlyInputs : Bool) : List (List Char) → Except ArgumentError Request
  | [] => finish s
  | text :: rest =>
    let afterStep (step : Except ArgumentError Step) : Except ArgumentError Request := do
      match ← step with
      | .next s => readFrom s false rest
      | .done request => return request
    match onlyInputs, text with
    | false, ['-', '-'] => readFrom s true rest
    | false, '-' :: '-' :: long => afterStep (readLong s long)
    | false, '-' :: c :: short => afterStep (readShort s (c :: short))
    | _, text =>
      match onlyInputs, s.pending with
      | false, .outDir none =>
        readFrom { s with pending := .outDir (some text) } false rest
      | _, _ => do readFrom (← readValue s text) onlyInputs rest

/-- Reads the arguments of a run. -/
def read (arguments : List (List Char)) : Except ArgumentError Request :=
  readFrom start false arguments

end Arguments

/-! ## Messages -/

namespace ArgumentError

/-- The usage that shows some options. -/
def usageOf (given : List Flag) : List Char :=
  "ksc ".toList ++ given.flatMap (fun flag => flag.display ++ [' ']) ++ Argument.inputs.display

/-- The usage that shows no option by name. -/
def usagePlain : List Char :=
  "ksc [OPTIONS] ".toList ++ Argument.inputs.display

/-- What is wrong. -/
def message : ArgumentError → List Char
  | required missing _ =>
    "the following required arguments were not provided:".toList ++
      missing.flatMap fun argument => "\n  ".toList ++ argument.display
  | conflict first second _ =>
    "the argument '".toList ++ first.display ++ "' cannot be used with '".toList ++
      second.display ++ ['\'']
  | valueMissing argument =>
    "a value is required for '".toList ++ argument.display ++ "' but none was supplied".toList
  | repeated flag =>
    "the argument '".toList ++ flag.display ++ "' cannot be used multiple times".toList
  | unknown text _ _ => "unexpected argument '".toList ++ text ++ "' found".toList
  | valueUnexpected value flag _ =>
    "unexpected value '".toList ++ value ++ "' for '".toList ++ flag.display ++
      "' found; no more were expected".toList

/-- Advice, if there is any. -/
def tip? : ArgumentError → Option (List Char)
  | unknown _ (some flag) _ =>
    some ("a similar argument exists: '--".toList ++ flag.name ++ ['\''])
  | unknown text none _ =>
    some ("to pass '".toList ++ text ++ "' as a value, use '-- ".toList ++ text ++ ['\''])
  | _ => none

/-- How the command is used, where that helps. -/
def usage? : ArgumentError → Option (List Char)
  | required _ given | conflict _ _ given | valueUnexpected _ _ given
  | unknown _ _ (some given) => some (usageOf given)
  | repeated _ | unknown _ _ none => some usagePlain
  | valueMissing _ => none

/-- The text in which the error is reported. -/
def report (e : ArgumentError) : List Char :=
  "error: ".toList ++ e.message ++ "\n\n".toList ++
    ((e.tip?.map fun tip => "  tip: ".toList ++ tip ++ "\n\n".toList).getD []) ++
    ((e.usage?.map fun usage => "Usage: ".toList ++ usage ++ "\n\n".toList).getD []) ++
    "For more information, try '--help'.\n".toList

end ArgumentError

/-- The text that explains the command. -/
def helpText : List Char :=
  ("kscript — TypeScript written with Korean keywords\n" ++
    "\n" ++
    "Usage: ksc [OPTIONS] <INPUTS>...\n" ++
    "\n" ++
    "Arguments:\n" ++
    "  <INPUTS>...  Input .ks files\n" ++
    "\n" ++
    "Options:\n" ++
    "  -o, --out-dir <OUT_DIR>  Directory for the generated .ts files (next to each input if omitted)\n" ++
    "      --check              Check the files for syntax errors without writing anything\n" ++
    "      --json               With --check, print the reports as JSON on stdout\n" ++
    "  -h, --help               Print help\n" ++
    "  -V, --version            Print version\n").toList

/-- The text that names the version. -/
def versionText : List Char :=
  "ksc 0.1.0\n".toList

end HangulScript
