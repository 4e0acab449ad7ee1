import LocLang.Tree.Map

namespace LocLang

variable {μ ν : Type}

mutual

/-- Whether a statement is a return, or a block with such a statement. -/
def Stmt.terminates : Stmt μ → Bool
  | .ret _ _ => true
  | .block body => body.terminates
  | _ => false

def Block.terminates : Block μ → Bool
  | .mk _ stmts => Stmt.anyTerminates stmts

def Stmt.anyTerminates : List (Stmt μ) → Bool
  | [] => false
  | stmt :: stmts => stmt.terminates || Stmt.anyTerminates stmts

end

mutual

def Expr.trimmed : Expr μ → Expr μ
  | .literal span value => .literal span value
  | .ident span name => .ident span name
  | .variant span enumName variant => .variant span enumName variant
  | .binary span op lhs rhs => .binary span op lhs.trimmed rhs.trimmed
  | .assign span target rhs => .assign span target.trimmed rhs.trimmed
  | .call span callee args => .call span callee.trimmed (Expr.trimmedList args)
  | .paren span inner => .paren span inner.trimmed
  | .select m => .select m.trimmed

def Expr.trimmedList : List (Expr μ) → List (Expr μ)
  | [] => []
  | e :: es => e.trimmed :: Expr.trimmedList es

def Match.trimmed : Match μ → Match μ
  | .mk span note scrutinee arms => .mk span note scrutinee.trimmed (Arm.trimmedList arms)

def Arm.trimmed : Arm μ → Arm μ
  | .block span pattern body => .block span pattern body.trimmed
  | .value span pattern value => .value span pattern value.trimmed

def Arm.trimmedList : List (Arm μ) → List (Arm μ)
  | [] => []
  | a :: as => a.trimmed :: Arm.trimmedList as

def Block.trimmed : Block μ → Block μ
  | .mk span stmts => .mk span (Stmt.trimmedList stmts)

def IfChain.trimmed : IfChain μ → IfChain μ
  | .only span condition body => .only span condition.trimmed body.trimmed
  | .orElse span condition body other => .orElse span condition.trimmed body.trimmed other.trimmed
  | .orIf span condition body next => .orIf span condition.trimmed body.trimmed next.trimmed

def Stmt.trimmed : Stmt μ → Stmt μ
  | .block body => .block body.trimmed
  | .decl span modes name nameSpan label none => .decl span modes name nameSpan label none
  | .decl span modes name nameSpan label (some init) => .decl span modes name nameSpan label (some init.trimmed)
  | .cond chain => .cond chain.trimmed
  | .loop span condition body => .loop span condition.trimmed body.trimmed
  | .select m => .select m.trimmed
  | .ret span none => .ret span none
  | .ret span (some value) => .ret span (some value.trimmed)
  | .expr span value => .expr span value.trimmed

/-- The statements up to the first one that terminates. -/
def Stmt.trimmedList : List (Stmt μ) → List (Stmt μ)
  | [] => []
  | stmt :: stmts => if stmt.terminates then [stmt.trimmed] else stmt.trimmed :: Stmt.trimmedList stmts

end

def FuncDef.trimmed (f : FuncDef μ) : FuncDef μ :=
  { f with body := f.body.trimmed }

def Def.trimmed : Def μ → Def μ
  | .enum e => .enum e
  | .func f => .func f.trimmed

/-- The program without dead statements. -/
def Program.trimmed (p : Program μ) : Program μ :=
  ⟨p.defs.map (·.trimmed)⟩

theorem Program.funcs_trimmed (p : Program μ) : p.trimmed.funcs = p.funcs.map (·.trimmed) := by
  obtain ⟨defs⟩ := p
  unfold trimmed funcs
  induction defs with
  | nil => rfl
  | cons d => cases d <;> simp_all [Def.trimmed]

theorem Program.enums_trimmed (p : Program μ) : p.trimmed.enums = p.enums := by
  obtain ⟨defs⟩ := p
  unfold trimmed enums
  induction defs with
  | nil => rfl
  | cons d => cases d <;> simp_all [Def.trimmed]

@[simp]
theorem Expr.span_trimmed (e : Expr μ) : e.trimmed.span = e.span := by
  cases e with
  | select m =>
    cases m
    rfl
  | _ => rfl

@[simp]
theorem Expr.length_trimmedList (es : List (Expr μ)) : (trimmedList es).length = es.length := by
  induction es with
  | nil => rfl
  | cons _ _ ih => rw [trimmedList, List.length_cons, List.length_cons, ih]

@[simp]
theorem Match.note_trimmed (m : Match μ) : m.trimmed.note = m.note := by
  cases m
  rfl

@[simp]
theorem Arm.pattern_trimmed (a : Arm μ) : a.trimmed.pattern = a.pattern := by
  cases a <;> rfl

@[simp]
theorem Arm.patterns_trimmedList (arms : List (Arm μ)) : (trimmedList arms).map (·.pattern) = arms.map (·.pattern) := by
  induction arms with
  | nil => rfl
  | cons arm _ ih => rw [trimmedList, List.map_cons, List.map_cons, arm.pattern_trimmed, ih]

theorem Stmt.trimmed_decl (span : Span) (modes : Modes) (name : String) (nameSpan : Span) (label : TypeLabel)
    (init : Option (Expr μ)) : (Stmt.decl span modes name nameSpan label init).trimmed =
      .decl span modes name nameSpan label (init.map (·.trimmed)) := by
  cases init <;> rfl

mutual

theorem Stmt.terminates_map (f : μ → ν) : ∀ s : Stmt μ, (s.map f).terminates = s.terminates
  | .block body => by simp only [Stmt.map, Stmt.terminates, body.terminates_map f]
  | .decl _ _ _ _ _ none | .decl _ _ _ _ _ (some _) | .cond _ | .loop _ _ _ | .select _ | .ret _ none | .ret _ (some _)
  | .expr _ _ => by simp only [Stmt.map, Stmt.terminates]

theorem Block.terminates_map (f : μ → ν) : ∀ b : Block μ, (b.map f).terminates = b.terminates
  | .mk _ stmts => by simp only [Block.map, Block.terminates, Stmt.anyTerminates_mapList f stmts]

theorem Stmt.anyTerminates_mapList (f : μ → ν) :
    ∀ stmts : List (Stmt μ), Stmt.anyTerminates (Stmt.mapList f stmts) = Stmt.anyTerminates stmts
  | [] => by simp only [Stmt.mapList, Stmt.anyTerminates]
  | s :: ss => by simp only [Stmt.mapList, Stmt.anyTerminates, s.terminates_map f, Stmt.anyTerminates_mapList f ss]

end

end LocLang
