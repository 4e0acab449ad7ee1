import LocLang.Enum
import LocLang.Lowering.Convert
import LocLang.Tree

namespace LocLang.Lower

def printName : String := "print"

/-- Where a function is lowered: the enums of the program and the type that it returns. -/
structure Env where
  enums : EnumTable
  result : MachineTy

/-- The discriminant of a variant as a constant. -/
def discriminant (enums : EnumTable) (enumName variant : String) : Lower Operand :=
  match enums.discriminant? enumName variant with
  | some n => pure (.const (.int .i32 n))
  | none => fault (.unknownVariant enumName variant)

/-- The value that a name refers to; that of a variable is loaded. -/
def load (name : String) : Lower Operand := do
  match ← lookup name with
  | .slot slot => emitValue slot.type fun dst => .load dst slot
  | .value v => pure v
  | .function _ => fault (.functionAsValue name)

/-- The slot of the variable that is assigned to. -/
def target {μ : Type} : Expr μ → Lower Slot
  | .ident _ name => do
    match ← lookup name with
    | .slot slot => pure slot
    | .value _ | .function _ => fault (.assignedRegister name)
  | _ => fault .assignedExpression

def callee (name : String) : Lower Signature := do
  match ← lookup name with
  | .function s => pure s
  | .slot _ | .value _ => fault (.calledValue name)

def call (s : Signature) (args : List Operand) : Lower Operand :=
  if s.result = .void then do
    emit (.callVoid s.name args)
    return .nothing
  else
    emitValue s.result fun dst => .call dst s.result s.name args

def declareVariable (name : String) (type : MachineTy) (init : Operand) : Lower Unit := do
  let slot ← newSlot (.named name) type
  emit (.store init slot)
  declare name (.slot slot)

/-- Tests whether a value is equal to a constant, which takes the value's type. -/
def equalTest (v : Operand) (wanted : Operand) : Lower Operand := do
  let wanted ← convert wanted v.type
  operate .eq v.type v wanted

/-- Tests whether a pattern matches a value, and names the value if the pattern does so. -/
def patternTest (enums : EnumTable) (v : Operand) : Pattern → Lower Operand
  | .wildcard _ => pure (.const (.ofBool true))
  | .bind _ name => do
    declare name (.value v)
    return .const (.ofBool true)
  | .literal _ value => equalTest v (.const (.ofLiteral value))
  | .variant _ enumName name _ => do
    equalTest v (← discriminant enums enumName name)

/-- Where a match goes on after its first `k` arms failed, `arms` being those left. -/
def nextTest {μ : Type} (n k : Nat) (arms : List (Arm μ)) : Label :=
  if arms.isEmpty then .matchFail n else .matchTest n k

/-- The slot for the value of a match, if it has one. -/
def resultSlot (n : Nat) (type : Ty) : Lower (Option Slot) :=
  match type with
  | .void | .unknown => pure none
  | type => some <$> newSlot (fun _ => .result n) type.machine

def loadResult : Option Slot → Lower Operand
  | some slot => emitValue slot.type fun dst => .load dst slot
  | none => pure .nothing

def storeResult (v : Operand) : Option Slot → Lower Unit
  | some slot => do
    let v ← convert v slot.type
    emit (.store v slot)
  | none => pure ()

mutual

def expr (env : Env) : Expr Ty → Lower Operand
  | .literal _ value => pure (.const (.ofLiteral value))
  | .ident _ name => load name
  | .variant _ enumName name => discriminant env.enums enumName name
  | .binary _ op lhs rhs => do
    let lhs ← expr env lhs
    let rhs ← expr env rhs
    binary op lhs rhs
  | .assign _ place rhs => do
    let slot ← target place
    let v ← expr env rhs
    let v ← convert v slot.type
    emit (.store v slot)
    return v
  | .call _ (.ident _ name) args =>
    if name = printName then
      match args with
      | [] => fault .nothingToPrint
      | arg :: _ => do
        let v ← expr env arg
        print v
        return .nothing
    else do
      let s ← callee name
      let args ← arguments env name s.params args
      call s args
  | .call _ _ _ => fault .calledExpression
  | .paren _ inner => expr env inner
  | .select m => selection env m.note m

/-- Lowers arguments from left to right, each converted to the type of its parameter. -/
def arguments (env : Env) (name : String) : List MachineTy → List (Expr Ty) → Lower (List Operand)
  | _, [] => pure []
  | [], _ :: _ => fault (.surplusArgument name)
  | type :: types, arg :: args => do
    let v ← expr env arg
    let v ← convert v type
    return v :: (← arguments env name types args)

/-- Lowers a match with a value of the given type. Arms are tried in order; if none matches, nothing is defined
    about what follows. -/
def selection (env : Env) (type : Ty) : Match Ty → Lower Operand
  | .mk _ _ scrutinee arms => do
    let n ← nextLabel
    let v ← expr env scrutinee
    let slot ← resultSlot n type
    terminate (.br (nextTest n 0 arms))
    armList env n v slot 0 arms
    place (.matchFail n)
    terminate .unreachable
    place (.matchEnd n)
    loadResult slot

/-- Lowers the arms of a match after the first `k`. -/
def armList (env : Env) (n : Nat) (v : Operand) (slot : Option Slot) (k : Nat) : List (Arm Ty) → Lower Unit
  | [] => pure ()
  | arm :: arms => do
    pushScope
    place (.matchTest n k)
    let cond ← patternTest env.enums v arm.pattern
    terminate (.condBr cond (.matchArm n k) (nextTest n (k + 1) arms))
    place (.matchArm n k)
    armBody env slot arm
    terminateIfOpen (.br (.matchEnd n))
    popScope
    armList env n v slot (k + 1) arms

def armBody (env : Env) (slot : Option Slot) : Arm Ty → Lower Unit
  | .block _ _ body => block env body
  | .value _ _ value => do
    let v ← expr env value
    storeResult v slot

/-- Lowers a block in a scope of its own. -/
def block (env : Env) : Block Ty → Lower Unit
  | .mk _ stmts => do
    pushScope
    stmtList env stmts
    popScope

/-- Lowers statements as long as they can be reached. -/
def stmtList (env : Env) : List (Stmt Ty) → Lower Unit
  | [] => pure ()
  | stmt :: stmts => do
    statement env stmt
    if ← isOpen then
      stmtList env stmts

def chain (env : Env) : IfChain Ty → Lower Unit
  | .only _ condition body => do
    let n ← nextLabel
    let cond ← expr env condition
    let cond ← convert cond .i1
    terminate (.condBr cond (.ifThen n) (.ifEnd n))
    place (.ifThen n)
    block env body
    terminateIfOpen (.br (.ifEnd n))
    place (.ifEnd n)
  | .orElse _ condition body other => do
    let n ← nextLabel
    let cond ← expr env condition
    let cond ← convert cond .i1
    terminate (.condBr cond (.ifThen n) (.ifElse n))
    place (.ifThen n)
    block env body
    terminateIfOpen (.br (.ifEnd n))
    place (.ifElse n)
    block env other
    terminateIfOpen (.br (.ifEnd n))
    place (.ifEnd n)
  | .orIf _ condition body next => do
    let n ← nextLabel
    let cond ← expr env condition
    let cond ← convert cond .i1
    terminate (.condBr cond (.ifThen n) (.ifElse n))
    place (.ifThen n)
    block env body
    terminateIfOpen (.br (.ifEnd n))
    place (.ifElse n)
    chain env next
    terminateIfOpen (.br (.ifEnd n))
    place (.ifEnd n)

def statement (env : Env) : Stmt Ty → Lower Unit
  | .block body => block env body
  | .decl _ _ name _ label init => do
    let type := (Ty.ofName label.name).machine
    let v ← initializer env type init
    declareVariable name type v
  | .cond chained => chain env chained
  | .loop _ condition body => do
    let n ← nextLabel
    terminate (.br (.whileCond n))
    place (.whileCond n)
    let cond ← expr env condition
    let cond ← convert cond .i1
    terminate (.condBr cond (.whileBody n) (.whileEnd n))
    place (.whileBody n)
    block env body
    terminateIfOpen (.br (.whileCond n))
    place (.whileEnd n)
  | .select m => do
    let _ ← selection env .void m
  | .ret _ none => terminate .retVoid
  | .ret _ (some value) => do
    let v ← expr env value
    let v ← convert v env.result
    terminate (.ret v)
  | .expr _ value => do
    let _ ← expr env value

/-- Lowers the first value of a variable, which is zero unless the program says otherwise. -/
def initializer (env : Env) (type : MachineTy) : Option (Expr Ty) → Lower Operand
  | none => pure (.const (.zero type))
  | some value => do
    let v ← expr env value
    convert v type

end

end LocLang.Lower
