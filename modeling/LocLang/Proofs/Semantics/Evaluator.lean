import LocLang.Analysis.Walk
import LocLang.Proofs.Semantics.Value

namespace LocLang

/-- Why a run stops before its end. -/
inductive Halt where
  /-- There was not enough fuel. -/
  | timeout
  /-- The program says nothing about what happens next. -/
  | undefined
  /-- The program makes no sense. -/
  | stuck
deriving DecidableEq, Repr

/-- What a run changes: the variables of the function that is running, and what has been printed. -/
structure World where
  cells : List Value := []
  output : List String := []
deriving DecidableEq, Repr

/-- A run. -/
abbrev Eval := EStateM Halt World

/-- What a name refers to in a run. -/
inductive Local where
  /-- A variable of the given type. -/
  | cell (index : Nat) (type : Ty)
  | value (v : Value)
deriving DecidableEq, Repr

/-- The names that can be used at a place of a function body, the innermost declaration first. -/
abbrev Locals := List (String × Local)

/-- How a statement ends: control goes on to the next one, which sees the given names, or leaves the function. -/
inductive Flow where
  | next (locals : Locals)
  | ret (value : Option Value)

/-- How an arm of a match ends. -/
inductive ArmEnd where
  | value (v : Value)
  | flow (f : Flow)

namespace Eval

/-- Where a function body runs. -/
structure Env where
  enums : EnumTable
  /-- The type that the function returns. -/
  result : Ty
  /-- How many times each loop can run. -/
  fuel : Nat
  /-- Calls a function by its name. One that returns nothing has no value. -/
  call : String → List Value → Eval (Option Value)

/-- Goes on with a value that must be there. -/
def require {α : Type} : Option α → Eval α
  | some a => pure a
  | none => throw .stuck

/-- Goes on with a value that may be undefined. -/
def define {α : Type} : Option α → Eval α
  | some a => pure a
  | none => throw .undefined

def newCell (v : Value) : Eval Nat :=
  modifyGet fun w => (w.cells.length, { w with cells := w.cells ++ [v] })

def readCell (index : Nat) : Eval Value := do
  require (← get).cells[index]?

def writeCell (index : Nat) (v : Value) : Eval Unit :=
  modify fun w => { w with cells := w.cells.set index v }

def printLine (v : Value) : Eval Unit :=
  modify fun w => { w with output := w.output ++ [v.text] }

/-- The value that a name refers to. -/
def read (locals : Locals) (name : String) : Eval Value := do
  match ← require (locals.lookup name) with
  | .cell index _ => readCell index
  | .value v => pure v

def binary (op : BinaryOp) (a b : Value) : Eval Value :=
  define (op.evaluate? a b)

def variant (enums : EnumTable) (enumName name : String) : Eval Value := do
  return .ofDiscriminant (← require (enums.discriminant? enumName name))

/-- Whether a pattern matches a value: the value of the pattern is taken in the type of the other one. -/
def selects (enums : EnumTable) (v : Value) : Pattern → Eval Bool
  | .wildcard _ | .bind _ _ => pure true
  | .literal _ literal => do
    let wanted ← require (Value.ofLiteral? literal)
    return v = wanted.convert v.type
  | .variant _ enumName name _ => do
    let wanted ← variant enums enumName name
    return v = wanted.convert v.type

/-- The names in an arm, whose pattern may name the value. -/
def bindings (v : Value) (locals : Locals) : Pattern → Locals
  | .bind _ name => (name, .value v) :: locals
  | _ => locals

theorem locals_suffix_bindings (v : Value) (locals : Locals) (p : Pattern) : locals <:+ bindings v locals p := by
  cases p with
  | bind => exact List.suffix_cons _ _
  | wildcard _ | literal _ _ | variant _ _ _ _ => exact List.suffix_rfl

/-- The value of a match of the given type whose arm has a value. -/
def matchValue (type : Ty) (v : Value) : Value :=
  if type = .void ∨ type = .unknown then .nothing else v.convert type

/-- Runs a body as long as a condition holds. -/
def iterate (condition : Eval Value) (body : Eval Flow) (locals : Locals) : Nat → Eval Flow
  | 0 => throw .timeout
  | fuel + 1 => do
    if (← condition).toInt = 0 then
      return .next locals
    match ← body with
    | .next _ => iterate condition body locals fuel
    | .ret v => return .ret v

mutual

def expr (env : Env) (locals : Locals) : Expr Ty → Eval Value
  | .literal _ literal => require (Value.ofLiteral? literal)
  | .ident _ name => read locals name
  | .variant _ enumName name => variant env.enums enumName name
  | .binary _ op lhs rhs => do
    let a ← expr env locals lhs
    let b ← expr env locals rhs
    binary op a b
  | .assign _ (.ident _ name) rhs => do
    match locals.lookup name with
    | some (.cell index type) => do
      let v ← expr env locals rhs
      writeCell index (v.convert type)
      return v.convert type
    | _ => throw .stuck
  | .assign _ _ _ => throw .stuck
  | .call _ (.ident _ name) args =>
    if name = "print" then
      match args with
      | [arg] => do
        printLine (← expr env locals arg)
        return .nothing
      | _ => throw .stuck
    else if (locals.lookup name).isSome then
      throw .stuck
    else do
      let args ← exprList env locals args
      return (← env.call name args).getD .nothing
  | .call _ _ _ => throw .stuck
  | .paren _ inner => expr env locals inner
  | .select (.mk _ type scrutinee arms) => do
    let v ← expr env locals scrutinee
    match ← armList env locals v arms with
    | .value v => return matchValue type v
    | .flow _ => throw .stuck

def exprList (env : Env) (locals : Locals) : List (Expr Ty) → Eval (List Value)
  | [] => pure []
  | e :: es => do
    let v ← expr env locals e
    return v :: (← exprList env locals es)

/-- Runs the first arm that matches a value. -/
def armList (env : Env) (locals : Locals) (v : Value) : List (Arm Ty) → Eval ArmEnd
  | [] => throw .undefined
  | arm :: arms => do
    if ← selects env.enums v arm.pattern then
      armBody env (bindings v locals arm.pattern) arm
    else
      armList env locals v arms

def armBody (env : Env) (locals : Locals) : Arm Ty → Eval ArmEnd
  | .block _ _ body => do
    return .flow (← block env locals body)
  | .value _ _ value => do
    return .value (← expr env locals value)

/-- Runs a block. The names declared in it are gone at its end. -/
def block (env : Env) (locals : Locals) : Block Ty → Eval Flow
  | .mk _ stmts => do
    match ← stmtList env locals stmts with
    | .next _ => return .next locals
    | .ret v => return .ret v

def stmtList (env : Env) (locals : Locals) : List (Stmt Ty) → Eval Flow
  | [] => pure (.next locals)
  | stmt :: stmts => do
    match ← statement env locals stmt with
    | .next locals => stmtList env locals stmts
    | .ret v => return .ret v

def chain (env : Env) (locals : Locals) : IfChain Ty → Eval Flow
  | .only _ condition body => do
    if (← expr env locals condition).toInt = 0 then return .next locals else block env locals body
  | .orElse _ condition body other => do
    if (← expr env locals condition).toInt = 0 then block env locals other else block env locals body
  | .orIf _ condition body next => do
    if (← expr env locals condition).toInt = 0 then chain env locals next else block env locals body

def statement (env : Env) (locals : Locals) : Stmt Ty → Eval Flow
  | .block body => block env locals body
  | .decl _ _ name _ label init => do
    let type := (env.enums.labelType (some label)).1
    let v ← initializer env locals type init
    let index ← newCell v
    return .next ((name, .cell index type) :: locals)
  | .cond c => chain env locals c
  | .loop _ condition body =>
    iterate (expr env locals condition) (block env locals body) locals env.fuel
  | .select (.mk _ _ scrutinee arms) => do
    let v ← expr env locals scrutinee
    match ← armList env locals v arms with
    | .flow (.ret v) => return .ret v
    | .flow (.next _) | .value _ => return .next locals
  | .ret _ none => pure (.ret none)
  | .ret _ (some value) => do
    let v ← expr env locals value
    return .ret (some (v.convert env.result))
  | .expr _ value => do
    let _ ← expr env locals value
    return .next locals

/-- The first value of a variable, which is zero unless the program says otherwise. -/
def initializer (env : Env) (locals : Locals) (type : Ty) : Option (Expr Ty) → Eval Value
  | none => pure (.ofInt type 0)
  | some value => do
    let v ← expr env locals value
    return v.convert type

end

theorem expr_call {env : Env} {locals : Locals} {span calleeSpan : Span} {name : String} {args : List (Expr Ty)}
    (hname : name ≠ "print") (hlookup : locals.lookup name = none) :
    expr env locals (.call span (.ident calleeSpan name) args) = (do
      let values ← exprList env locals args
      return (← env.call name values).getD .nothing) := by
  rw [expr.eq_def]
  simp only [if_neg hname, hlookup, Option.isSome_none, Bool.false_eq_true, if_false]

/-- The names of parameters, each with an argument in the type of the parameter. -/
def parameters (enums : EnumTable) (params : List Param) (args : List Value) : Locals :=
  (List.zipWith (fun p v => (p.name, .value (v.convert (enums.labelType (some p.label)).1))) params args).reverse

/-- Calls a function of a program. It has variables of its own. -/
def call (enums : EnumTable) (functions : List (FuncDef Ty)) : Nat → String → List Value → Eval (Option Value)
  | 0, _, _ => throw .timeout
  | fuel + 1, name, args => do
    let f ← require (functions.find? (·.name = name))
    if f.params.length ≠ args.length then
      throw .stuck
    let cells := (← get).cells
    modify fun w => { w with cells := [] }
    let result := (enums.labelType f.result).1
    let env : Env := { enums, result, fuel, call := call enums functions fuel }
    let flow ← block env (parameters enums f.params args) f.body
    modify fun w => { w with cells }
    match flow with
    | .ret v => return v
    | .next _ => if result = .void then return none else throw .undefined

/-- The end of a call from outside and what it has printed, if the fuel is enough. -/
def outcome (enums : EnumTable) (functions : List (FuncDef Ty)) (name : String) (args : List Value) (fuel : Nat) :
    Option (Ending Value × List String) :=
  match (call enums functions fuel name args).run {} with
  | .ok value w => some (.returned value, w.output)
  | .error .timeout _ => none
  | .error .undefined w => some (.undefined, w.output)
  | .error .stuck w => some (.stuck, w.output)

/-- A call that has fuel runs the body of the function. -/
theorem call_succ {enums : EnumTable} {functions : List (FuncDef Ty)} {fuel : Nat} {name : String} {args : List Value}
    {f : FuncDef Ty} (hfind : functions.find? (·.name = name) = some f) (hlength : f.params.length = args.length) :
    call enums functions (fuel + 1) name args = (do
      let cells := (← get).cells
      modify fun w => { w with cells := [] }
      let flow ← block ⟨enums, (enums.labelType f.result).1, fuel, call enums functions fuel⟩
        (parameters enums f.params args) f.body
      modify fun w => { w with cells }
      match flow with
      | .ret v => return v
      | .next _ => if (enums.labelType f.result).1 = .void then return none else throw .undefined) := by
  rw [call, hfind]
  simp only [require, pure_bind, ne_eq, hlength, not_true_eq_false, if_false]

end Eval

end LocLang
