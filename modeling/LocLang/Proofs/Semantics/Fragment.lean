import LocLang.Lowering
import LocLang.Proofs.Semantics.Words

namespace LocLang

/-- Where a tree stands: the enums and the functions of the program, and the type that the function returns. -/
structure Fragment where
  enums : EnumTable
  functions : List (FuncDef Ty)
  result : Ty

/-- Whether a literal is an integer of 64 bits or a truth value. -/
def Literal.Discrete (literal : Literal) : Prop :=
  literal.InRange ∧ (Value.ofLiteral? literal).isSome

/-- Whether a variant exists and its discriminant has 32 bits. -/
def EnumTable.Discrete (enums : EnumTable) (enumName variant : String) : Prop :=
  ∃ n, enums.discriminant? enumName variant = some n ∧ n < 2 ^ 31

def Pattern.Discrete (enums : EnumTable) : Pattern → Prop
  | .wildcard _ | .bind _ _ => True
  | .literal _ value => value.Discrete
  | .variant _ enumName name _ => enums.Discrete enumName name

/-- Whether a function can be called with the given number of arguments. -/
def Fragment.Calls (c : Fragment) (name : String) (count : Nat) : Prop :=
  if name = Lower.printName then count = 1
  else ∃ f, c.functions.find? (·.name = name) = some f ∧ f.params.length = count

mutual

def Expr.Discrete (c : Fragment) : Expr Ty → Prop
  | .literal _ value => value.Discrete
  | .ident _ _ => True
  | .variant _ enumName name => c.enums.Discrete enumName name
  | .binary _ _ lhs rhs => lhs.Discrete c ∧ rhs.Discrete c
  | .assign _ (.ident _ _) rhs => rhs.Discrete c
  | .assign _ _ _ => False
  | .call _ (.ident _ name) args => c.Calls name args.length ∧ Expr.DiscreteList c args
  | .call _ _ _ => False
  | .paren _ inner => inner.Discrete c
  | .select (.mk _ type scrutinee arms) =>
    (type.isInteger ∨ type = .void) ∧ scrutinee.Discrete c ∧ Arm.DiscreteList c true arms

def Expr.DiscreteList (c : Fragment) : List (Expr Ty) → Prop
  | [] => True
  | e :: es => e.Discrete c ∧ Expr.DiscreteList c es

/-- The arms of a match, which has a value or has none. -/
def Arm.DiscreteList (c : Fragment) (valued : Bool) : List (Arm Ty) → Prop
  | [] => True
  | arm :: arms => arm.pattern.Discrete c.enums ∧ arm.Discrete c valued ∧ Arm.DiscreteList c valued arms

def Arm.Discrete (c : Fragment) (valued : Bool) : Arm Ty → Prop
  | .block _ _ body => ¬valued ∧ body.Discrete c
  | .value _ _ value => value.Discrete c

def Block.Discrete (c : Fragment) : Block Ty → Prop
  | .mk _ stmts => Stmt.DiscreteList c stmts

def Stmt.DiscreteList (c : Fragment) : List (Stmt Ty) → Prop
  | [] => True
  | stmt :: stmts => stmt.Discrete c ∧ Stmt.DiscreteList c stmts

def IfChain.Discrete (c : Fragment) : IfChain Ty → Prop
  | .only _ condition body => condition.Discrete c ∧ body.Discrete c
  | .orElse _ condition body other => condition.Discrete c ∧ body.Discrete c ∧ other.Discrete c
  | .orIf _ condition body next => condition.Discrete c ∧ body.Discrete c ∧ next.Discrete c

def Stmt.Discrete (c : Fragment) : Stmt Ty → Prop
  | .block body => body.Discrete c
  | .decl _ _ _ _ label init =>
    (c.enums.labelType (some label)).1.isInteger ∧ Ty.ofName label.name = (c.enums.labelType (some label)).1 ∧
      Expr.DiscreteInit c init
  | .cond chain => chain.Discrete c
  | .loop _ condition body => condition.Discrete c ∧ body.Discrete c
  | .select (.mk _ _ scrutinee arms) => scrutinee.Discrete c ∧ Arm.DiscreteList c false arms
  | .ret _ none => c.result = .void
  | .ret _ (some value) => c.result.isInteger ∧ value.Discrete c
  | .expr _ value => value.Discrete c

def Expr.DiscreteInit (c : Fragment) : Option (Expr Ty) → Prop
  | none => True
  | some value => value.Discrete c

end

/-- Whether a function has no floats and can be run. -/
structure FuncDef.Discrete (enums : EnumTable) (functions : List (FuncDef Ty)) (f : FuncDef Ty) : Prop where
  params : ∀ p ∈ f.params, (enums.labelType (some p.label)).1.isInteger
  names : (f.params.map fun p => parameterName p.name).Nodup
  result : (enums.labelType f.result).1.isInteger ∨ (enums.labelType f.result).1 = .void
  body : f.body.Discrete ⟨enums, functions, (enums.labelType f.result).1⟩

end LocLang
