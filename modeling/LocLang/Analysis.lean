import LocLang.Analysis.Body
import LocLang.Analysis.Header

namespace LocLang

namespace Walk

/-- The type of a label in the head of a function. The labels of a declared function have been checked. -/
def headType (enums : EnumTable) (declared : Bool) (label : Option TypeLabel) : Walk (Ty × Option String) :=
  if declared then pure (enums.labelType label) else resolveType enums label

def parameters (enums : EnumTable) (declared : Bool) : List Param → Walk Unit
  | [] => pure ()
  | param :: params => do
    let (type, enumName) ← headType enums declared (some param.label)
    define
      { name := param.name, type, typeName := param.label.text, enumName, kind := .value,
        storage := .register, modes := param.modes }
      param.span
    tell (.parameterDeclared param.modes param.label.text param.name)
    parameters enums declared params

/-- Walks a function inside its own scopes. -/
def function (enums : EnumTable) (f : FuncDef Unit) (declared : Bool) : Walk (FuncDef Ty) := do
  tell (.functionEntered f.name)
  push
  let (result, _) ← headType enums declared f.result
  parameters enums declared f.params
  let body ← block ⟨enums, result⟩ f.body
  tell (.functionLeft f.name)
  pure { f with body }

/-- Walks a definition and closes its scopes. If the walk is given up, the reason is the last finding. -/
def definition (enums : EnumTable) (f : FuncDef Unit) (declared : Bool) (s : State) :
    Option (FuncDef Ty) × State :=
  match (function enums f declared).run s with
  | (.ok checked, s) => (some checked, { s with scopes := s.scopes.exitFunction })
  | (.error reason, s) =>
    (none, { s with scopes := s.scopes.exitFunction, log := s.log.addFinding reason.issue reason.span })

/-- Walks definitions in order and gives those that were walked to their end. -/
def definitions (enums : EnumTable) : List (FuncDef Unit × Bool) → State → List (FuncDef Ty) × State
  | [], s => ([], s)
  | (f, declared) :: defs, s =>
    let (checked, s) := definition enums f declared s
    let (rest, s) := definitions enums defs s
    (checked.toList ++ rest, s)

end Walk

structure Analysis where
  diagnostics : List Diagnostic
  /-- Every declared symbol, in the order of declaration. -/
  symbols : List Symbol
  /-- The functions that can be called, the built-in one included. -/
  funcs : List Symbol
  enums : EnumTable
  /-- The types of the matches that were walked to their end; a match in statement position has no value. -/
  matchTypes : List (Span × Ty)
  events : List Event
  /-- The functions that were walked to their end, with the type of every match. -/
  checked : List (FuncDef Ty)

namespace Analysis

def errors (a : Analysis) : List Diagnostic :=
  a.diagnostics.filter (·.isError)

def errorCount (a : Analysis) : Nat :=
  a.errors.length

def hasErrors (a : Analysis) : Bool :=
  a.diagnostics.any (·.isError)

def trace (a : Analysis) : List String :=
  a.events.map (·.text)

def matchType? (a : Analysis) (span : Span) : Option Ty :=
  a.matchTypes.lookup span

end Analysis

/-- Analyses a program. In strict mode a match that is not exhaustive is an error, otherwise a warning. -/
def Program.analyze (p : Program Unit) (strict : Bool) : Analysis :=
  let header := Header.ofProgram p
  let (checked, s) := Walk.definitions header.enums header.defs ⟨strict, header.scopes, header.log⟩
  { diagnostics := s.log.findings.map (·.diagnostic)
    symbols := s.log.symbols
    funcs := header.funcs
    enums := header.enums
    matchTypes := s.log.matchTypes
    events := s.log.events
    checked }

end LocLang
