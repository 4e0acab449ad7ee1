import LocLang.Analysis.Patterns
import LocLang.Tree.Map

namespace LocLang

/-- The enum that an expression's value belongs to, as far as that is known. -/
def Expr.enumName? {μ : Type} (scopes : Scopes Symbol) : Expr μ → Option String
  | .ident _ name =>
    match scopes.resolve? name with
    | some entry => if entry.value.kind = .value then entry.value.enumName else none
    | none => none
  | .variant _ enumName _ => some enumName
  | .call _ (.ident _ name) _ =>
    match scopes.resolve? name with
    | some entry => if entry.value.kind = .function then entry.value.enumName else none
    | none => none
  | .paren _ inner => inner.enumName? scopes
  | .assign _ target _ => target.enumName? scopes
  | _ => none

namespace Walk

/-- What the body of a function is walked against: the enums and the type of the function's result. -/
structure Env where
  enums : EnumTable
  result : Ty

/-- The type of a literal where a value of the type `expected` is wanted. A number adopts a wanted type that
    can represent it. -/
def literal (expected : Ty) (span : Span) : Literal → Walk Ty
  | .int value => do
    if expected.isFloating || expected = .int64 then pure expected
    else
      if expected = .int32 && !Literal.fitsInt32 value then report (.literalOverflow value) span
      pure .int32
  | .float _ => pure (if expected = .float32 then .float32 else .float64)
  | .bool _ => pure .bool

/-- The type of a match after an arm: arms without a value do not count. -/
def joinArm (sofar arm : Ty) : Ty :=
  if arm = .void then sofar
  else if sofar = .unknown then arm
  else sofar.wider arm

/-- The issue with assigning to a symbol. -/
def assignIssue? (symbol : Symbol) : Option Issue :=
  if symbol.assignable then none
  else if symbol.kind = .function then some (.assignToFunction symbol.name)
  else some (.assignToConstant symbol.name)

/-- Notes an issue if there is one. -/
def reportIf (issue : Option Issue) (span : Span) : Walk Unit :=
  match issue with
  | some issue => report issue span
  | none => pure ()

/-- Notes that a match leaves out values: an error in strict mode, and otherwise a warning. -/
def reportGap (gap : Gap) (span : Span) : Walk Unit := do
  if (← get).strict then report (.notExhaustive .error gap) span
  else report (.notExhaustive .warning gap) span

mutual

/-- Walks an expression where a value of the type `expected` is wanted, `unknown` for any, and gives its type. -/
def expr (env : Env) (expected : Ty) : Expr Unit → Walk (Ty × Expr Ty)
  | .literal span value => do
    let type ← literal expected span value
    pure (type, .literal span value)
  | .ident span name => do
    let symbol ← lookup name span
    if symbol.kind = .function then report (.functionAsValue name) span
    pure (symbol.type, .ident span name)
  | .variant span enumName variant => do
    reportIf (env.enums.variantIssue? enumName variant) span
    pure (.int32, .variant span enumName variant)
  | .binary span op lhs rhs => do
    let (lhsType, lhs) ← expr env .unknown lhs
    let (rhsType, rhs) ← expr env .unknown rhs
    pure (if op.isComparison then .bool else lhsType.wider rhsType, .binary span op lhs rhs)
  | .assign span (.ident targetSpan name) rhs => do
    let symbol ← lookup name targetSpan
    reportIf (assignIssue? symbol) targetSpan
    let (_, rhs) ← expr env symbol.type rhs
    pure (symbol.type, .assign span (.ident targetSpan name) rhs)
  | .assign span target rhs => do
    report .assignToExpression target.span
    let (type, rhs) ← expr env .unknown rhs
    pure (type, .assign span (target.map fun _ => .unknown) rhs)
  | .call span (.ident calleeSpan name) args => do
    let symbol ← lookup name calleeSpan
    if symbol.kind = .function then
      if args.length ≠ symbol.params.length then
        report (.callArity symbol.name symbol.params.length args.length) span
      let args ← arguments env symbol.params args
      pure (symbol.type, .call span (.ident calleeSpan name) args)
    else giveUp (.notAFunction name) calleeSpan
  | .call span callee args => do
    report .unnamedCallee callee.span
    let args ← arguments env [] args
    pure (.unknown, .call span (callee.map fun _ => .unknown) args)
  | .paren span inner => do
    let (type, inner) ← expr env expected inner
    pure (type, .paren span inner)
  | .select m => do
    let (type, m) ← selection env expected m
    pure (type, .select m)

/-- Walks the arguments of a call against the types of the parameters, as far as there are any. -/
def arguments (env : Env) (params : List Ty) : List (Expr Unit) → Walk (List (Expr Ty))
  | [] => pure []
  | arg :: args => do
    let (_, arg) ← expr env (params.head?.getD .unknown) arg
    let args ← arguments env params.tail args
    pure (arg :: args)

/-- Walks a match where a value of the type `expected` is wanted; a match without a value wants `void`. -/
def selection (env : Env) (expected : Ty) : Match Unit → Walk (Ty × Match Ty)
  | .mk span _ scrutinee arms => do
    let (type, scrutinee') ← expr env .unknown scrutinee
    let enumName := scrutinee.enumName? (← scopes)
    let (joined, arms') ← armList env expected type enumName .unknown arms
    match env.enums.gap? type enumName (arms.map (·.pattern)) with
    | some gap => reportGap gap span
    | none => pure ()
    let result := if expected = .unknown then joined else expected
    recordMatch span result
    pure (result, .mk span result scrutinee' arms')

/-- Walks arms against a value of the given type and enum, each in a scope of its own, and gives the type that
    their values join to, from `sofar` on. -/
def armList (env : Env) (expected type : Ty) (enumName : Option String) (sofar : Ty) :
    List (Arm Unit) → Walk (Ty × List (Arm Ty))
  | [] => pure (sofar, [])
  | arm :: arms => do
    let (joined, arm') ← inScope false do
      pattern env.enums type enumName arm.pattern
      armBody env expected sofar arm
    let (joined, arms') ← armList env expected type enumName joined arms
    pure (joined, arm' :: arms')

def armBody (env : Env) (expected sofar : Ty) : Arm Unit → Walk (Ty × Arm Ty)
  | .block span pattern body => do
    let body ← block env body
    pure (sofar, .block span pattern body)
  | .value span pattern value => do
    let (type, value) ← expr env (if expected = .void then .unknown else expected) value
    pure (joinArm sofar type, .value span pattern value)

/-- Walks a block in a scope of its own. -/
def block (env : Env) : Block Unit → Walk (Block Ty)
  | .mk span stmts => do
    let stmts ← inScope true (stmtList env stmts)
    pure (.mk span stmts)

def stmtList (env : Env) : List (Stmt Unit) → Walk (List (Stmt Ty))
  | [] => pure []
  | stmt :: stmts => do
    let stmt ← statement env stmt
    let stmts ← stmtList env stmts
    pure (stmt :: stmts)

def chain (env : Env) : IfChain Unit → Walk (IfChain Ty)
  | .only span condition body => do
    let (_, condition) ← expr env .bool condition
    let body ← block env body
    pure (.only span condition body)
  | .orElse span condition body other => do
    let (_, condition) ← expr env .bool condition
    let body ← block env body
    let other ← block env other
    pure (.orElse span condition body other)
  | .orIf span condition body next => do
    let (_, condition) ← expr env .bool condition
    let body ← block env body
    let next ← chain env next
    pure (.orIf span condition body next)

/-- Walks a statement. A variable is declared after its initial value, which does not see it. -/
def statement (env : Env) : Stmt Unit → Walk (Stmt Ty)
  | .block body => do
    let body ← block env body
    pure (.block body)
  | .decl span modes name nameSpan label init => do
    let (type, enumName) ← resolveType env.enums (some label)
    if type = .void then report (.voidVariable name) label.span
    let type := if type = .void then .unknown else type
    let init ← initializer env type init
    define { name, type, typeName := label.text, enumName, kind := .value, storage := .slot, modes } nameSpan
    tell (.variableDeclared modes label.text name)
    pure (.decl span modes name nameSpan label init)
  | .cond c => do
    let c ← chain env c
    pure (.cond c)
  | .loop span condition body => do
    let (_, condition) ← expr env .bool condition
    let body ← block env body
    pure (.loop span condition body)
  | .select m => do
    let (_, m) ← selection env .void m
    pure (.select m)
  | .ret span none => do
    if env.result ≠ .void then report .missingReturnValue span
    pure (.ret span none)
  | .ret span (some value) => do
    if env.result = .void then report .unexpectedReturnValue value.span
    let (_, value) ← expr env (if env.result = .void then .unknown else env.result) value
    pure (.ret span (some value))
  | .expr span value => do
    let (_, value) ← expr env .unknown value
    pure (.expr span value)

/-- Walks the initial value of a variable of the given type. -/
def initializer (env : Env) (type : Ty) : Option (Expr Unit) → Walk (Option (Expr Ty))
  | none => pure none
  | some init => do
    let (_, init) ← expr env type init
    pure (some init)

end

end Walk

end LocLang
