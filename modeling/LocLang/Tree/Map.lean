import LocLang.Tree

namespace LocLang

variable {μ ν : Type} (f : μ → ν)

mutual

def Expr.map : Expr μ → Expr ν
  | .literal span value => .literal span value
  | .ident span name => .ident span name
  | .variant span enumName variant => .variant span enumName variant
  | .binary span op lhs rhs => .binary span op (lhs.map) (rhs.map)
  | .assign span target rhs => .assign span (target.map) (rhs.map)
  | .call span callee args => .call span (callee.map) (Expr.mapList args)
  | .paren span inner => .paren span (inner.map)
  | .select m => .select (m.map)

def Expr.mapList : List (Expr μ) → List (Expr ν)
  | [] => []
  | e :: es => e.map :: Expr.mapList es

def Match.map : Match μ → Match ν
  | .mk span note scrutinee arms => .mk span (f note) (scrutinee.map) (Arm.mapList arms)

def Arm.map : Arm μ → Arm ν
  | .block span pattern body => .block span pattern (body.map)
  | .value span pattern value => .value span pattern (value.map)

def Arm.mapList : List (Arm μ) → List (Arm ν)
  | [] => []
  | a :: as => a.map :: Arm.mapList as

def Block.map : Block μ → Block ν
  | .mk span stmts => .mk span (Stmt.mapList stmts)

def IfChain.map : IfChain μ → IfChain ν
  | .only span condition body => .only span (condition.map) (body.map)
  | .orElse span condition body other => .orElse span (condition.map) (body.map) (other.map)
  | .orIf span condition body next => .orIf span (condition.map) (body.map) (next.map)

def Stmt.map : Stmt μ → Stmt ν
  | .block body => .block (body.map)
  | .decl span modes name nameSpan label none => .decl span modes name nameSpan label none
  | .decl span modes name nameSpan label (some init) => .decl span modes name nameSpan label (some (init.map))
  | .cond chain => .cond (chain.map)
  | .loop span condition body => .loop span (condition.map) (body.map)
  | .select m => .select (m.map)
  | .ret span none => .ret span none
  | .ret span (some value) => .ret span (some (value.map))
  | .expr span value => .expr span (value.map)

def Stmt.mapList : List (Stmt μ) → List (Stmt ν)
  | [] => []
  | s :: ss => s.map :: Stmt.mapList ss

end

end LocLang
