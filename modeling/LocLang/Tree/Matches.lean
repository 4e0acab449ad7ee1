import LocLang.Tree

namespace LocLang

variable {μ : Type}

mutual

def Expr.matches : Expr μ → List (Match μ)
  | .literal _ _ => []
  | .ident _ _ => []
  | .variant _ _ _ => []
  | .binary _ _ lhs rhs => lhs.matches ++ rhs.matches
  | .assign _ target rhs => target.matches ++ rhs.matches
  | .call _ callee args => callee.matches ++ Expr.listMatches args
  | .paren _ inner => inner.matches
  | .select m => m.matches

def Expr.listMatches : List (Expr μ) → List (Match μ)
  | [] => []
  | e :: es => e.matches ++ Expr.listMatches es

def Match.matches : Match μ → List (Match μ)
  | .mk span note scrutinee arms =>
    .mk span note scrutinee arms :: (scrutinee.matches ++ Arm.listMatches arms)

def Arm.matches : Arm μ → List (Match μ)
  | .block _ _ body => body.matches
  | .value _ _ value => value.matches

def Arm.listMatches : List (Arm μ) → List (Match μ)
  | [] => []
  | a :: as => a.matches ++ Arm.listMatches as

def Block.matches : Block μ → List (Match μ)
  | .mk _ stmts => Stmt.listMatches stmts

def IfChain.matches : IfChain μ → List (Match μ)
  | .only _ condition body => condition.matches ++ body.matches
  | .orElse _ condition body other => condition.matches ++ body.matches ++ other.matches
  | .orIf _ condition body next => condition.matches ++ body.matches ++ next.matches

def Stmt.matches : Stmt μ → List (Match μ)
  | .block body => body.matches
  | .decl _ _ _ _ _ none => []
  | .decl _ _ _ _ _ (some init) => init.matches
  | .cond chain => chain.matches
  | .loop _ condition body => condition.matches ++ body.matches
  | .select m => m.matches
  | .ret _ none => []
  | .ret _ (some value) => value.matches
  | .expr _ value => value.matches

def Stmt.listMatches : List (Stmt μ) → List (Match μ)
  | [] => []
  | s :: ss => s.matches ++ Stmt.listMatches ss

end

/-- Every match of a program in reading order. -/
def Program.matches (p : Program μ) : List (Match μ) :=
  p.funcs.flatMap (·.body.matches)

end LocLang
