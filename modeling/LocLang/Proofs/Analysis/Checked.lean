import LocLang.Analysis
import LocLang.Proofs.Scopes

namespace LocLang

variable {μ : Type}

def Scopes.define (s : Scopes Symbol) (symbol : Symbol) (span : Span) : Scopes Symbol :=
  s.declare symbol.name { symbol with depth := s.depth, span := some span }

/-- The type of a literal where a value of the type `expected` is wanted. -/
def Literal.typeFor (expected : Ty) : Literal → Ty
  | int _ => if expected.isFloating || expected = .int64 then expected else .int32
  | float _ => if expected = .float32 then .float32 else .float64
  | bool _ => .bool

/-- Whether a literal can stand where a value of the type `expected` is wanted. -/
def Literal.Fits (expected : Ty) : Literal → Prop
  | int value => expected = .int32 → fitsInt32 value
  | float _ | bool _ => True

def EnumTable.Has (enums : EnumTable) (enumName variant : String) : Prop :=
  ∃ n, enums.discriminant? enumName variant = some n

/-- Whether a pattern can be matched against a value of the given type. -/
def Pattern.Checked (enums : EnumTable) (type : Ty) : Pattern → Prop
  | wildcard _ | bind _ _ => True
  | literal _ value => value.patternIssue? type = none
  | variant _ enumName name args => enums.Has enumName name ∧ args.getD [] = []

/-- The scopes with the name that a pattern gives to the value. -/
def Pattern.scopes (type : Ty) (enumName : Option String) (s : Scopes Symbol) : Pattern → Scopes Symbol
  | bind span name => s.define { name, type, enumName, kind := .value, storage := .register } span
  | _ => s

def EnumTable.variable (enums : EnumTable) (modes : Modes) (name : String) (label : TypeLabel) : Symbol where
  name := name
  type := (enums.labelType (some label)).1
  typeName := label.text
  enumName := (enums.labelType (some label)).2
  kind := .value
  storage := .slot
  modes := modes

/-- The scopes after a statement: a declaration adds its variable. -/
def Stmt.scopes (enums : EnumTable) (s : Scopes Symbol) : Stmt μ → Scopes Symbol
  | decl _ modes name nameSpan label _ => s.define (enums.variable modes name label) nameSpan
  | _ => s

def Stmt.listScopes (enums : EnumTable) (s : Scopes Symbol) (stmts : List (Stmt μ)) : Scopes Symbol :=
  stmts.foldl (fun s stmt => stmt.scopes enums s) s

mutual

/-- Whether an expression, of the given type where `expected` is wanted, is in order. -/
def Expr.Checked (env : Walk.Env) (s : Scopes Symbol) (expected type : Ty) : Expr Ty → Prop
  | .literal _ value => value.Fits expected ∧ type = value.typeFor expected
  | .ident _ name => ∃ symbol, s.Finds name symbol ∧ symbol.kind = .value ∧ type = symbol.type
  | .variant _ enumName variant => env.enums.Has enumName variant ∧ type = .int32
  | .binary _ op lhs rhs =>
    ∃ lhsType rhsType, lhs.Checked env s .unknown lhsType ∧ rhs.Checked env s .unknown rhsType ∧
      type = if op.isComparison then .bool else lhsType.wider rhsType
  | .assign _ (.ident _ name) rhs =>
    ∃ symbol rhsType, s.Finds name symbol ∧ symbol.assignable ∧ rhs.Checked env s symbol.type rhsType ∧
      type = symbol.type
  | .assign _ _ _ => False
  | .call _ (.ident _ name) args =>
    ∃ symbol, s.Finds name symbol ∧ symbol.kind = .function ∧ args.length = symbol.params.length ∧
      Expr.CheckedList env s symbol.params args ∧ type = symbol.type
  | .call _ _ _ => False
  | .paren _ inner => inner.Checked env s expected type
  | .select m => m.Checked env s expected type

/-- Whether arguments are in order where values of the given types are wanted. -/
def Expr.CheckedList (env : Walk.Env) (s : Scopes Symbol) (params : List Ty) : List (Expr Ty) → Prop
  | [] => True
  | arg :: args =>
    (∃ type, arg.Checked env s (params.head?.getD .unknown) type) ∧ Expr.CheckedList env s params.tail args

def Match.Checked (env : Walk.Env) (s : Scopes Symbol) (expected type : Ty) : Match Ty → Prop
  | .mk _ note scrutinee arms =>
    ∃ scrutineeType joined, scrutinee.Checked env s .unknown scrutineeType ∧
      Arm.CheckedList env s expected scrutineeType (scrutinee.enumName? s) .unknown joined arms ∧
      type = (if expected = .unknown then joined else expected) ∧ note = type

/-- Whether arms are in order against a value of the given type and enum; `joined` is the type that their values
    join to from `sofar` on. -/
def Arm.CheckedList (env : Walk.Env) (s : Scopes Symbol) (expected type : Ty) (enumName : Option String)
    (sofar joined : Ty) : List (Arm Ty) → Prop
  | [] => joined = sofar
  | arm :: arms =>
    ∃ next, arm.pattern.Checked env.enums type ∧
      arm.Checked env (arm.pattern.scopes type enumName s.push) expected sofar next ∧
      Arm.CheckedList env s expected type enumName next joined arms

def Arm.Checked (env : Walk.Env) (s : Scopes Symbol) (expected sofar joined : Ty) : Arm Ty → Prop
  | .block _ _ body => body.Checked env s ∧ joined = sofar
  | .value _ _ value =>
    ∃ type, value.Checked env s (if expected = .void then .unknown else expected) type ∧
      joined = Walk.joinArm sofar type

def Block.Checked (env : Walk.Env) (s : Scopes Symbol) : Block Ty → Prop
  | .mk _ stmts => Stmt.CheckedList env s.push stmts

def Stmt.CheckedList (env : Walk.Env) (s : Scopes Symbol) : List (Stmt Ty) → Prop
  | [] => True
  | stmt :: stmts => stmt.Checked env s ∧ Stmt.CheckedList env (stmt.scopes env.enums s) stmts

def IfChain.Checked (env : Walk.Env) (s : Scopes Symbol) : IfChain Ty → Prop
  | .only _ condition body => (∃ type, condition.Checked env s .bool type) ∧ body.Checked env s
  | .orElse _ condition body other =>
    (∃ type, condition.Checked env s .bool type) ∧ body.Checked env s ∧ other.Checked env s
  | .orIf _ condition body next =>
    (∃ type, condition.Checked env s .bool type) ∧ body.Checked env s ∧ next.Checked env s

def Stmt.Checked (env : Walk.Env) (s : Scopes Symbol) : Stmt Ty → Prop
  | .block body => body.Checked env s
  | .decl _ _ _ _ label init =>
    (env.enums.labelType (some label)).1 ≠ .unknown ∧ (env.enums.labelType (some label)).1 ≠ .void ∧
      Expr.CheckedInit env s (env.enums.labelType (some label)).1 init
  | .cond chain => chain.Checked env s
  | .loop _ condition body => (∃ type, condition.Checked env s .bool type) ∧ body.Checked env s
  | .select m => ∃ type, m.Checked env s .void type
  | .ret _ none => env.result = .void
  | .ret _ (some value) => env.result ≠ .void ∧ ∃ type, value.Checked env s env.result type
  | .expr _ value => ∃ type, value.Checked env s .unknown type

/-- Whether the initial value of a variable of the type `expected` is in order, if there is one. -/
def Expr.CheckedInit (env : Walk.Env) (s : Scopes Symbol) (expected : Ty) : Option (Expr Ty) → Prop
  | none => True
  | some init => ∃ type, init.Checked env s expected type

end

end LocLang
