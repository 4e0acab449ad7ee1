import LocLang.Analysis
import LocLang.Lowering.Body

namespace LocLang

/-- The name of a parameter in code. The name of the first block is taken. -/
def parameterName (name : String) : String :=
  if name = "entry" then "entry.arg" else name

def FuncDef.irParams {μ : Type} (f : FuncDef μ) (s : Signature) : List IrParam :=
  List.zipWith (fun p type => ⟨parameterName p.name, type⟩) f.params s.params

/-- The signature of a function by what the analysis knows of it. -/
def Symbol.signature (s : Symbol) : Signature :=
  ⟨s.name, s.params.map (·.machine), s.type.machine⟩

/-- The function of a name among those that can be called. -/
def Analysis.function? (a : Analysis) (name : String) : Option Symbol :=
  a.funcs.find? (·.name = name)

namespace Lower

def parameters : List (String × IrParam) → Lower Unit
  | [] => pure ()
  | (name, param) :: params => do
    declare name (.value (.param param.name param.type))
    parameters params

/-- Declares every function, so that each can call all of them. -/
def signatures (a : Analysis) : List (FuncDef Ty) → Lower Unit
  | [] => pure ()
  | f :: fs => do
    match a.function? f.name with
    | none => fault (.undeclaredFunction f.name)
    | some symbol =>
      if symbol.params.length < f.params.length then
        fault (.undeclaredFunction f.name)
      declare f.name (.function symbol.signature)
      signatures a fs

/-- Starts a function: no slots, no registers, no blocks but an open one. -/
def begin : Lower Unit :=
  modify fun d =>
    { d with registers := 0, slots := [], closed := [], current := some { label := .entry } }

/-- Lowers a function. The end of a function that returns a value is never reached. -/
def function (enums : EnumTable) (f : FuncDef Ty) : Lower IrFunction := do
  let s ← callee f.name
  let params := f.irParams s
  begin
  pushScope
  parameters ((f.params.map (·.name)).zip params)
  block ⟨enums, s.result⟩ f.body
  terminateIfOpen (if s.result = .void then .retVoid else .unreachable)
  modify fun d => { d with scopes := d.scopes.exitFunction }
  let d ← get
  return ⟨f.name, s.result, params, d.finished⟩

def functions (enums : EnumTable) : List (FuncDef Ty) → Lower (List IrFunction)
  | [] => pure []
  | f :: fs => do
    let first ← function enums f
    return first :: (← functions enums fs)

def program (a : Analysis) : Lower (List IrFunction) := do
  signatures a a.checked
  functions a.enums a.checked

end Lower

inductive LowerError where
  /-- The program has errors. -/
  | rejected (count : Nat)
  | faulty (f : Fault)
deriving DecidableEq, Repr

def LowerError.message : LowerError → String
  | rejected count => s!"cannot generate code for a program with errors: {count} errors"
  | faulty f => f.message

/-- The code of an analysed program, if it has no errors. -/
def Analysis.lower (a : Analysis) (target : Target) : Except LowerError IrModule :=
  if a.hasErrors then
    .error (.rejected a.errorCount)
  else
    match (Lower.program a).run { scopes := .empty } with
    | .error f => .error (.faulty f)
    | .ok (functions, d) => .ok ⟨target, d.formats, Declaration.runtime, functions⟩

end LocLang
