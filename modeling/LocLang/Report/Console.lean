import LocLang.Diagnostic
import LocLang.Report.Excerpt
import LocLang.Report.Level
import LocLang.SourceError

namespace LocLang

structure Console where
  level : LogLevel := .silent
  errors : Nat := 0
  warnings : Nat := 0
  /-- Everything shown so far. -/
  shown : String := ""
deriving DecidableEq, Repr

def Console.anyErrors (c : Console) : Bool :=
  0 < c.errors

/-- The status that the program ends with. -/
abbrev ExitStatus := Nat

def ExitStatus.failure : ExitStatus := 1

/-- After an error that should not have happened. -/
def ExitStatus.internal : ExitStatus := 255

/-- Reporting to the console. -/
abbrev Report := ExceptT ExitStatus (StateM Console)

/-- A file that reports are about. -/
structure Subject where
  /-- The path that is shown. -/
  shown : String
  /-- The absolute path and the contents for excerpts, if they are at hand. -/
  file : Option (String × List UInt8) := none
deriving DecidableEq, Repr

namespace Report

def print (text : String) : Report Unit :=
  modify fun c => { c with shown := c.shown ++ text }

def printLine (line : String) : Report Unit :=
  print (line ++ "\n")

def printLines : List String → Report Unit
  | [] => pure ()
  | line :: lines => do
    printLine line
    printLines lines

/-- Starts over with the given level. -/
def start (level : LogLevel) : Report Unit :=
  modify fun c => { c with level, errors := 0, warnings := 0 }

/-- Ends the program because of an error that should not have happened. -/
def internalError {α : Type} (message : String) : Report α := do
  printLines
    ["Internal Compiler Error " ++ message,
     "This error was not supposed to happen: it is likely a bug in the compiler.", ""]
  throw .internal

/-- Ends the program. -/
def fatal {α : Type} (message : String) : Report α := do
  if (← get).level.showsErrors then
    printLines ["Fatal Error " ++ message, ""]
  throw .failure

/-- Shows the part of a file that a span covers. -/
def excerpt (path : String) (bytes : List UInt8) (span : Span) : Report Unit :=
  let lines := ByteLine.split bytes
  if lines.any (·.isTooLong) then
    internalError s!"failed to read file {path} for reporting: bufio.Scanner: token too long"
  else
    printLines (Excerpt.ofLines lines span).rows

/-- Shows a message about a file, with an excerpt if there is something to take it from. -/
def message (label : String) (subject : Subject) (span : Option Span) (text : String) : Report Unit :=
  match span with
  | none => printLines [s!"{subject.shown}: {label} {text}", ""]
  | some span => do
    printLines [s!"{subject.shown}:{span.text}: {label} {text}", ""]
    match subject.file with
    | none => pure ()
    | some (path, bytes) => excerpt path bytes span

def error (subject : Subject) (span : Option Span) (text : String) : Report Unit := do
  modify fun c => { c with errors := c.errors + 1 }
  if (← get).level.showsErrors then
    message "error" subject span text

def warning (subject : Subject) (span : Option Span) (text : String) : Report Unit := do
  modify fun c => { c with warnings := c.warnings + 1 }
  if (← get).level.showsWarnings then
    message "warning" subject span text

/-- Reports a diagnostic: what is not an error is a warning. -/
def diagnostic (subject : Subject) (d : Diagnostic) : Report Unit :=
  if d.isError then error subject d.span d.summary else warning subject d.span d.summary

def diagnostics (subject : Subject) : List Diagnostic → Report Unit
  | [] => pure ()
  | d :: ds => do
    diagnostic subject d
    diagnostics subject ds

/-- Reports an error about a file as a whole. -/
def failure (path : String) (text : String) : Report Unit :=
  error { shown := path } none text

/-- Reports why a source text is no program. -/
def sourceError (subject : Subject) : SourceError → Report Unit
  | .malformed cause span => error subject (some span) cause.message
  | .unreadable text => failure subject.shown text

/-- Shows a line of the trace. -/
def info (tag text : String) : Report Unit := do
  if (← get).level.showsTrace then
    printLine (tag ++ " " ++ text)

/-- A number of things. -/
def count (n : Nat) (thing : String) : String :=
  toString n ++ " " ++ thing ++ if n = 1 then "" else "s"

/-- Shows the closing line. -/
def finish : Report Unit := do
  let c ← get
  if c.level.showsErrors then
    let verdict := if c.anyErrors then "Oh no!" else "All done!"
    printLine (verdict ++ " (" ++ count c.errors "error" ++ ", " ++ count c.warnings "warning" ++ ")")

end Report

end LocLang
