import LocLang.Span

namespace LocLang

/-- What a diagnostic is about. A kind that has no name is shown by its number. -/
inductive DiagnosticKind where
  | unresolvedName
  | unresolvedType
  | nonExhaustiveMatch
  | invalidPatternArity
  | invalidAssignmentTarget
  | invalidCallArity
  | duplicateDefinition
  | invalidReturn
  | invalidLiteral
  | unnamed (code : Int)
deriving DecidableEq, Repr

def DiagnosticKind.text : DiagnosticKind → String
  | unresolvedName => "unresolved name"
  | unresolvedType => "unresolved type"
  | nonExhaustiveMatch => "non-exhaustive match"
  | invalidPatternArity => "invalid pattern arity"
  | invalidAssignmentTarget => "invalid assignment target"
  | invalidCallArity => "invalid call arity"
  | duplicateDefinition => "duplicate definition"
  | invalidReturn => "invalid return"
  | invalidLiteral => "invalid literal"
  | unnamed code => s!"diagnostic({code})"

/-- How serious a diagnostic is. Only an error keeps code from being generated. An unlisted severity is
    worded like an error and counts as a warning. -/
inductive Severity where
  | error
  | warning
  | unlisted
deriving DecidableEq, Repr

def Severity.text : Severity → String
  | warning => "warning"
  | error | unlisted => "error"

structure Diagnostic where
  kind : DiagnosticKind
  severity : Severity
  span : Option Span
  message : String
deriving DecidableEq, Repr

namespace Diagnostic

def isError (d : Diagnostic) : Bool :=
  d.severity = .error

/-- What the diagnostic is about and its message. -/
def summary (d : Diagnostic) : String :=
  d.kind.text ++ ": " ++ d.message

def text (d : Diagnostic) : String :=
  let message := d.severity.text ++ ": " ++ d.summary
  match d.span with
  | some span => span.locate message
  | none => message

end Diagnostic

end LocLang
