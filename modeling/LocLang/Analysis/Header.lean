import LocLang.Analysis.Walk

namespace LocLang

/-- The functions that every module declares for itself. -/
def runtimeFunctions : List String :=
  ["printf", "puts", "malloc", "free"]

/-- The built-in function: it takes one value of any type and returns nothing. -/
def printFunction : Symbol where
  name := "print"
  type := .void
  kind := .function
  storage := .register
  params := [.unknown]

/-- The declarations at the top of a program, as far as they are collected. -/
structure Header where
  enums : EnumTable := .predefined
  /-- The names of the enums that the program defines itself. -/
  enumNames : List String := []
  /-- The declared functions in order, the built-in one first. -/
  funcs : List Symbol := [printFunction]
  /-- Every function definition in order, and whether it was declared. -/
  defs : List (FuncDef Unit × Bool) := []
  scopes : Scopes Symbol := Scopes.empty.declare printFunction.name printFunction
  log : Log := {}

namespace Header

/-- The repetitions in a list of names, each as often as it repeats. -/
def repetitions : List String → List String → List String
  | _, [] => []
  | seen, name :: names =>
    if seen.contains name then name :: repetitions seen names else repetitions (name :: seen) names

/-- Collects an enum. Of several with one name the first counts. -/
def addEnum (h : Header) (e : EnumDef) : Header :=
  if h.enumNames.contains e.name then
    { h with log := h.log.addFinding (.duplicateEnum e.name) e.span }
  else
    let log := (repetitions [] e.variants).foldl
      (fun log variant => log.addFinding (.duplicateVariant e.name variant) e.span) h.log
    { h with
      enums := h.enums.define ⟨e.name, e.variants⟩
      enumNames := e.name :: h.enumNames
      log := log.addEvent (.enumDeclared e.name) }

/-- The issue with the name of a function. -/
def nameIssue? (h : Header) (name : String) : Option Issue :=
  if runtimeFunctions.contains name then some (.reservedFunction name)
  else if h.funcs.any (·.name = name) then some (.duplicateFunction name)
  else none

def checkLabel (enums : EnumTable) (log : Log) (label : Option TypeLabel) : Log :=
  match enums.labelFinding? label with
  | some finding => log.addFinding finding.issue finding.span
  | none => log

def checkParam (enums : EnumTable) (log : Log) (param : Param) : Log :=
  let log := checkLabel enums log (some param.label)
  if (enums.labelType (some param.label)).1 = .void then
    log.addFinding (.voidParameter param.name) param.label.span
  else log

def symbol (enums : EnumTable) (f : FuncDef Unit) : Symbol :=
  let (type, enumName) := enums.labelType f.result
  { name := f.name
    span := some f.nameSpan
    type
    typeName := f.result.elim "" (·.text)
    enumName
    kind := .function
    storage := .register
    params := f.params.map fun param => (enums.labelType (some param.label)).1 }

/-- Declares a function, unless its name is taken. -/
def addFunc (h : Header) (f : FuncDef Unit) : Header :=
  match h.nameIssue? f.name with
  | some issue =>
    { h with log := h.log.addFinding issue f.nameSpan, defs := h.defs ++ [(f, false)] }
  | none =>
    let symbol := symbol h.enums f
    let log := f.params.foldl (checkParam h.enums) (checkLabel h.enums h.log f.result)
    { h with
      funcs := h.funcs ++ [symbol]
      defs := h.defs ++ [(f, true)]
      scopes := h.scopes.declare symbol.name symbol
      log := log.addSymbol symbol }

/-- The declarations at the top of a program. -/
def ofProgram (p : Program Unit) : Header :=
  p.funcs.foldl addFunc (p.enums.foldl addEnum {})

end Header

end LocLang
