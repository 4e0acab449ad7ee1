import LocLang.Analysis.Issue
import LocLang.Scope
import LocLang.Enum
import LocLang.Symbol
import LocLang.Tree

namespace LocLang

/-- A step of an analysis that is told in its trace. -/
inductive Event where
  | enumDeclared (name : String)
  | functionEntered (name : String)
  | parameterDeclared (modes : Modes) (label name : String)
  | variableDeclared (modes : Modes) (label name : String)
  | functionLeft (name : String)
deriving DecidableEq, Repr

def Event.text : Event → String
  | enumDeclared name => "Enum declaration: " ++ name
  | functionEntered name => "Entering function: " ++ name
  | parameterDeclared modes label name => "Parameter: " ++ modes.text ++ " " ++ label ++ " " ++ name
  | variableDeclared modes label name =>
    "Variable declaration: " ++ modes.text ++ " " ++ label ++ " " ++ name
  | functionLeft name => "Exiting function: " ++ name

/-- What a walk has found so far, everything in order. -/
structure Log where
  findings : List Finding := []
  symbols : List Symbol := []
  /-- The type of each match whose walk is complete, with the span of the match. -/
  matchTypes : List (Span × Ty) := []
  events : List Event := []
deriving DecidableEq, Repr

namespace Log

def addFinding (log : Log) (issue : Issue) (span : Span) : Log :=
  { log with findings := log.findings ++ [⟨issue, span⟩] }

def addSymbol (log : Log) (symbol : Symbol) : Log :=
  { log with symbols := log.symbols ++ [symbol] }

def addMatchType (log : Log) (span : Span) (type : Ty) : Log :=
  { log with matchTypes := log.matchTypes ++ [(span, type)] }

def addEvent (log : Log) (event : Event) : Log :=
  { log with events := log.events ++ [event] }

end Log

structure Walk.State where
  /-- Whether a match that leaves out values is an error; no walk changes it. -/
  strict : Bool
  scopes : Scopes Symbol
  log : Log
deriving DecidableEq, Repr

/-- A part of a walk. A finding that it ends with is the reason why it was given up. -/
abbrev Walk := ExceptT Finding (StateM Walk.State)

namespace Walk

variable {α : Type}

/-- Notes an issue and goes on. -/
def report (issue : Issue) (span : Span) : Walk Unit :=
  modify fun s => { s with log := s.log.addFinding issue span }

/-- Gives up because of an issue. -/
def giveUp (issue : Issue) (span : Span) : Walk α :=
  throw ⟨issue, span⟩

def tell (event : Event) : Walk Unit :=
  modify fun s => { s with log := s.log.addEvent event }

def recordMatch (span : Span) (type : Ty) : Walk Unit :=
  modify fun s => { s with log := s.log.addMatchType span type }

def scopes : Walk (Scopes Symbol) := do
  pure (← get).scopes

def push : Walk Unit :=
  modify fun s => { s with scopes := s.scopes.push }

def pop : Walk Unit :=
  modify fun s => { s with scopes := s.scopes.pop }

/-- A part of a walk in a scope of its own. A scope whose closing is deferred is closed even if the walk is given
    up inside; another one then stays open. -/
def inScope (deferred : Bool) (x : Walk α) : Walk α := do
  push
  if deferred then
    ExceptT.mk do
      let outcome ← x.run
      modify fun s => { s with scopes := s.scopes.pop }
      pure outcome
  else
    let a ← x
    pop
    pure a

/-- The symbol that a name refers to. Without one the walk is given up. -/
def lookup (name : String) (span : Span) : Walk Symbol := do
  match (← scopes).resolve? name with
  | some entry => pure entry.value
  | none => giveUp (.undefinedSymbol name) span

/-- What there is to say about a declaration in the given scopes. Two names that are not variables cannot share
    a scope; otherwise a later declaration hides the earlier one, or a parameter, which deserves a warning. -/
def declarationIssue? (scopes : Scopes Symbol) (symbol : Symbol) : Option Issue :=
  match scopes.declaredHere? symbol.name with
  | some earlier =>
    if earlier.value.storage = .register && symbol.storage = .register then
      some (.duplicateSymbol symbol.name)
    else some (.redeclared symbol.name)
  | none =>
    if 1 < scopes.depth then
      match scopes.resolveAt? symbol.name 1 with
      | some param => if param.value.storage = .register then some (.shadowsParameter symbol.name) else none
      | none => none
    else none

/-- Declares a symbol at `span` in the innermost scope. -/
def define (symbol : Symbol) (span : Span) : Walk Unit := do
  let scopes ← scopes
  match declarationIssue? scopes symbol with
  | some issue => report issue span
  | none => pure ()
  let symbol := { symbol with depth := scopes.depth, span := some span }
  modify fun s => { s with scopes := s.scopes.declare symbol.name symbol, log := s.log.addSymbol symbol }

end Walk

/-- The type that a label denotes and the enum that it names; no label denotes the type without values. -/
def EnumTable.labelType (enums : EnumTable) : Option TypeLabel → Ty × Option String
  | none => (.void, none)
  | some label =>
    if label.isGeneric then (.unknown, none)
    else
      match Ty.primitive? label.name with
      | some type => (type, none)
      | none => if (enums.get? label.name).isSome then (.int32, some label.name) else (.unknown, none)

/-- What is wrong with a label. -/
def EnumTable.labelFinding? (enums : EnumTable) : Option TypeLabel → Option Finding
  | none => none
  | some label =>
    if (enums.labelType (some label)).1 = .unknown then
      if label.isGeneric then some ⟨.genericType label.text, label.span⟩
      else some ⟨.undefinedType label.name, label.span⟩
    else none

/-- The type of a label, with a report if it denotes none. -/
def Walk.resolveType (enums : EnumTable) (label : Option TypeLabel) : Walk (Ty × Option String) := do
  match enums.labelFinding? label with
  | some finding => report finding.issue finding.span
  | none => pure ()
  pure (enums.labelType label)

end LocLang
