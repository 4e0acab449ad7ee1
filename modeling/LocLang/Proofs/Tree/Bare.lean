import LocLang.Proofs.Tree.Moved

namespace LocLang

open Program

variable {μ : Type}

def Param.plain (p : Param) : Param :=
  { p with modes := {} }

mutual

/-- The expression without parentheses, and without modes inside it. -/
def Expr.plain : Expr μ → Expr μ
  | .literal span value => .literal span value
  | .ident span name => .ident span name
  | .variant span enumName variant => .variant span enumName variant
  | .binary span op lhs rhs => .binary span op lhs.plain rhs.plain
  | .assign span target rhs => .assign span target.plain rhs.plain
  | .call span callee args => .call span callee.plain (Expr.plainList args)
  | .paren _ inner => inner.plain
  | .select m => .select m.plain

def Expr.plainList : List (Expr μ) → List (Expr μ)
  | [] => []
  | e :: es => e.plain :: Expr.plainList es

def Match.plain : Match μ → Match μ
  | .mk span note scrutinee arms => .mk span note scrutinee.plain (Arm.plainList arms)

def Arm.plain : Arm μ → Arm μ
  | .block span pattern body => .block span pattern body.plain
  | .value span pattern value => .value span pattern value.plain

def Arm.plainList : List (Arm μ) → List (Arm μ)
  | [] => []
  | a :: as => a.plain :: Arm.plainList as

def Block.plain : Block μ → Block μ
  | .mk span stmts => .mk span (Stmt.plainList stmts)

def IfChain.plain : IfChain μ → IfChain μ
  | .only span condition body => .only span condition.plain body.plain
  | .orElse span condition body other => .orElse span condition.plain body.plain other.plain
  | .orIf span condition body next => .orIf span condition.plain body.plain next.plain

def Stmt.plain : Stmt μ → Stmt μ
  | .block body => .block body.plain
  | .decl span _ name nameSpan label none => .decl span {} name nameSpan label none
  | .decl span _ name nameSpan label (some init) => .decl span {} name nameSpan label (some init.plain)
  | .cond chain => .cond chain.plain
  | .loop span condition body => .loop span condition.plain body.plain
  | .select m => .select m.plain
  | .ret span none => .ret span none
  | .ret span (some value) => .ret span (some value.plain)
  | .expr span value => .expr span value.plain

def Stmt.plainList : List (Stmt μ) → List (Stmt μ)
  | [] => []
  | s :: ss => s.plain :: Stmt.plainList ss

end

def FuncDef.plain (f : FuncDef μ) : FuncDef μ :=
  { f with params := f.params.map (·.plain), body := f.body.plain }

def Def.plain : Def μ → Def μ
  | .enum e => .enum e
  | .func f => .func f.plain

/-- The program without parentheses and modes. -/
def Program.plain (p : Program μ) : Program μ :=
  ⟨p.defs.map (·.plain)⟩

/-- The program without parentheses, modes and places. -/
def Program.bare (p : Program μ) : Program μ :=
  p.unplaced.plain

theorem Match.note_plain (m : Match μ) : m.plain.note = m.note := by
  cases m
  rw [plain, note, note]

theorem Arm.pattern_plain (a : Arm μ) : a.plain.pattern = a.pattern := by
  cases a <;> rw [plain, pattern, pattern]

/-- The function without parentheses, modes and places. -/
def FuncDef.bare (f : FuncDef μ) : FuncDef μ :=
  (f.moved fun _ => .origin).plain

theorem Program.funcs_bare (p : Program μ) : p.bare.funcs = p.funcs.map (·.bare) := by
  unfold funcs bare plain unplaced moved
  rw [List.filterMap_map, List.filterMap_map, List.map_filterMap]
  congr 1
  funext d
  cases d <;> rfl

theorem Program.enums_bare (p : Program μ) : p.bare.enums = p.enums.map (·.moved fun _ => .origin) := by
  unfold enums bare plain unplaced moved
  rw [List.filterMap_map, List.filterMap_map, List.map_filterMap]
  congr 1
  funext d
  cases d <;> rfl

end LocLang
