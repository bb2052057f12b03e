import HangulScript.Checking
import HangulScript.Text.Decimal

/-!
# Log lines

What the passes and the check tell about their work, and the filter that chooses which of it is
shown. The directive with the longest matching target decides.
-/

namespace HangulScript

open Text

/-- Something that can be told about a run. -/
inductive LogEvent
  | keyword (offset : Nat) (spelling : List Char)
  | openRegion (region : Region)
  | keywordsDone (substitutions inputLength outputLength : Nat)
  | methodsDone (elided : Nat)
  | checked (file : List Char) (diagnostics : Nat)
deriving DecidableEq

/-- How much is shown: all levels up to this one. -/
inductive LogLevel
  | off
  | error
  | warn
  | info
  | debug
  | trace
deriving DecidableEq, Repr

namespace LogLevel

/-- The rank of a level. -/
def rank : LogLevel → Nat
  | off => 0
  | error => 1
  | warn => 2
  | info => 3
  | debug => 4
  | trace => 5

def name : LogLevel → List Char
  | off => "OFF".toList
  | error => "ERROR".toList
  | warn => "WARN".toList
  | info => "INFO".toList
  | debug => "DEBUG".toList
  | trace => "TRACE".toList

def all : List LogLevel :=
  [off, error, warn, info, debug, trace]

/-- The level of a name in any case, or of a rank. -/
def ofText? (text : List Char) : Option LogLevel :=
  all.find? fun level => text.map Char.toUpper = level.name || text = decimal level.rank

end LogLevel

namespace LogEvent

def level : LogEvent → LogLevel
  | keyword .. => .trace
  | _ => .debug

def target : LogEvent → List Char
  | keyword .. | openRegion .. | keywordsDone .. => "ks_lexer::scanner".toList
  | methodsDone .. => "ks_parser::preprocess::class_pass".toList
  | checked .. => "ks_parser::check".toList

def message : LogEvent → List Char
  | keyword offset spelling =>
    "keyword at=".toList ++ decimal offset ++ " spelling=\"".toList ++ spelling ++ ['"']
  | openRegion region =>
    "input ended inside an unterminated region mode=".toList ++ region.describe.toList
  | keywordsDone substitutions inputLength outputLength =>
    "keyword pass finished substitutions=".toList ++ decimal substitutions ++
      " input_len=".toList ++ decimal inputLength ++ " output_len=".toList ++ decimal outputLength
  | methodsDone elided => "class-body pass finished elided=".toList ++ decimal elided
  | checked file diagnostics =>
    "checked file=".toList ++ file ++ " diagnostics=".toList ++ decimal diagnostics

/-- The line of an event. -/
def line (event : LogEvent) : List Char :=
  event.level.name ++ ' ' :: event.target ++ ": ".toList ++ event.message ++ ['\n']

end LogEvent

/-! ## Events of a run -/

/-- What the keyword pass tells. -/
def keywordEvents (trace : Trace OpenRegions) : List LogEvent :=
  trace.changes.map (fun visit => .keyword visit.removedAt visit.edit.removed) ++
    (trace.final.open?.map LogEvent.openRegion).toList ++
    [.keywordsDone trace.changes.length (byteLength trace.source) (byteLength trace.output)]

/-- What the two passes tell. -/
def Conversion.events (done : Conversion) : List LogEvent :=
  ((done.keywordTrace.map keywordEvents).getD []) ++
    (done.methodTrace.map fun trace => LogEvent.methodsDone trace.changes.length).toList

/-- What a check tells. -/
def Checked.events (checked : Checked) : List LogEvent :=
  checked.conversion.events ++ [.checked checked.report.file checked.report.diagnostics.length]

/-! ## Filters -/

/-- The targets that begin with a text are shown up to a level. -/
structure LogDirective where
  target : List Char
  level : LogLevel
deriving DecidableEq, Repr

namespace LogDirective

/-- Reads `target=level`, a level for all targets, or a target that is shown in full. -/
def ofText? (text : List Char) : Option LogDirective :=
  let target := text.takeWhile (· ≠ '=')
  match text.dropWhile (· ≠ '='), LogLevel.ofText? text with
  | _ :: level, _ => (LogLevel.ofText? level).map (⟨target, ·⟩)
  | [], some level => some ⟨[], level⟩
  | [], none => if text = [] then none else some ⟨target, .trace⟩

end LogDirective

/-- The directives of a filter, in order. -/
abbrev LogFilter := List LogDirective

namespace LogFilter

/-- The pieces of a text between commas. -/
def splitAtCommas : List Char → List (List Char)
  | [] => [[]]
  | c :: rest =>
    if c = ',' then [] :: splitAtCommas rest
    else match splitAtCommas rest with
      | [] => [[c]]
      | piece :: others => (c :: piece) :: others

/-- Reads directives between commas; what cannot be read is left out. -/
def ofText (text : List Char) : LogFilter :=
  (splitAtCommas text).filterMap LogDirective.ofText?

/-- The directive of two that decides: the one with the longer target, else the later one. -/
def closer (a b : LogDirective) : LogDirective :=
  if b.target.length < a.target.length then a else b

/-- The level up to which a target is shown. -/
def levelFor (filter : LogFilter) (target : List Char) : LogLevel :=
  match filter.filter fun directive => directive.target.isPrefixOf target with
  | [] => .error
  | first :: rest => (rest.foldl closer first).level

/-- The event is shown. -/
def shows (filter : LogFilter) (event : LogEvent) : Bool :=
  event.level.rank ≤ (filter.levelFor event.target).rank

/-- The lines of the events that are shown. -/
def lines (filter : LogFilter) (events : List LogEvent) : List Char :=
  (events.filter filter.shows).flatMap LogEvent.line

end LogFilter

end HangulScript
