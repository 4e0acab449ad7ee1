import LocLang.Token
import LocLang.Tree.Map

namespace LocLang

variable {μ ν : Type} (move : Pos → Pos)

def Span.moved (s : Span) : Span :=
  ⟨move s.start, move s.stop⟩

def Token.moved (t : Token) : Token :=
  { t with span := t.span.moved move }

mutual

def TypeLabel.moved : TypeLabel → TypeLabel
  | .mk span name args => .mk (span.moved move) name (TypeLabel.movedList args)

def TypeLabel.movedList : List TypeLabel → List TypeLabel
  | [] => []
  | label :: labels => label.moved :: TypeLabel.movedList labels

end

mutual

def Pattern.moved : Pattern → Pattern
  | .wildcard span => .wildcard (span.moved move)
  | .literal span value => .literal (span.moved move) value
  | .bind span name => .bind (span.moved move) name
  | .variant span enumName name none => .variant (span.moved move) enumName name none
  | .variant span enumName name (some args) =>
    .variant (span.moved move) enumName name (some (Pattern.movedList args))

def Pattern.movedList : List Pattern → List Pattern
  | [] => []
  | pattern :: patterns => pattern.moved :: Pattern.movedList patterns

end

mutual

def Expr.moved : Expr μ → Expr μ
  | .literal span value => .literal (span.moved move) value
  | .ident span name => .ident (span.moved move) name
  | .variant span enumName variant => .variant (span.moved move) enumName variant
  | .binary span op lhs rhs => .binary (span.moved move) op lhs.moved rhs.moved
  | .assign span target rhs => .assign (span.moved move) target.moved rhs.moved
  | .call span callee args => .call (span.moved move) callee.moved (Expr.movedList args)
  | .paren span inner => .paren (span.moved move) inner.moved
  | .select m => .select m.moved

def Expr.movedList : List (Expr μ) → List (Expr μ)
  | [] => []
  | e :: es => e.moved :: Expr.movedList es

def Match.moved : Match μ → Match μ
  | .mk span note scrutinee arms => .mk (span.moved move) note scrutinee.moved (Arm.movedList arms)

def Arm.moved : Arm μ → Arm μ
  | .block span pattern body => .block (span.moved move) (pattern.moved move) body.moved
  | .value span pattern value => .value (span.moved move) (pattern.moved move) value.moved

def Arm.movedList : List (Arm μ) → List (Arm μ)
  | [] => []
  | a :: as => a.moved :: Arm.movedList as

def Block.moved : Block μ → Block μ
  | .mk span stmts => .mk (span.moved move) (Stmt.movedList stmts)

def IfChain.moved : IfChain μ → IfChain μ
  | .only span condition body => .only (span.moved move) condition.moved body.moved
  | .orElse span condition body other => .orElse (span.moved move) condition.moved body.moved other.moved
  | .orIf span condition body next => .orIf (span.moved move) condition.moved body.moved next.moved

def Stmt.moved : Stmt μ → Stmt μ
  | .block body => .block body.moved
  | .decl span modes name nameSpan label none =>
    .decl (span.moved move) modes name (nameSpan.moved move) (label.moved move) none
  | .decl span modes name nameSpan label (some init) =>
    .decl (span.moved move) modes name (nameSpan.moved move) (label.moved move) (some init.moved)
  | .cond chain => .cond chain.moved
  | .loop span condition body => .loop (span.moved move) condition.moved body.moved
  | .select m => .select m.moved
  | .ret span none => .ret (span.moved move) none
  | .ret span (some value) => .ret (span.moved move) (some value.moved)
  | .expr span value => .expr (span.moved move) value.moved

def Stmt.movedList : List (Stmt μ) → List (Stmt μ)
  | [] => []
  | s :: ss => s.moved :: Stmt.movedList ss

end

def Param.moved (p : Param) : Param :=
  { p with span := p.span.moved move, label := p.label.moved move }

def EnumDef.moved (e : EnumDef) : EnumDef :=
  { e with span := e.span.moved move }

def FuncDef.moved (f : FuncDef μ) : FuncDef μ where
  span := f.span.moved move
  name := f.name
  nameSpan := f.nameSpan.moved move
  params := f.params.map (·.moved move)
  result := f.result.map (·.moved move)
  body := f.body.moved move

def Def.moved : Def μ → Def μ
  | .enum e => .enum (e.moved move)
  | .func f => .func (f.moved move)

def Program.moved (p : Program μ) : Program μ :=
  ⟨p.defs.map (·.moved move)⟩

/-- The program with all places moved to one: what is left is independent of the layout of its text. -/
def Program.unplaced (p : Program μ) : Program μ :=
  p.moved fun _ => .origin

section Lists

@[simp]
theorem TypeLabel.movedList_eq_map (labels : List TypeLabel) : movedList move labels = labels.map (·.moved move) := by
  induction labels with
  | nil => rfl
  | cons _ _ ih => rw [movedList, ih, List.map_cons]

@[simp]
theorem Pattern.movedList_eq_map (patterns : List Pattern) : movedList move patterns = patterns.map (·.moved move) := by
  induction patterns with
  | nil => rfl
  | cons _ _ ih => rw [movedList, ih, List.map_cons]

theorem Expr.movedList_eq_map (es : List (Expr μ)) : movedList move es = es.map (·.moved move) := by
  induction es with
  | nil => rfl
  | cons _ _ ih => rw [movedList, ih, List.map_cons]

theorem Arm.movedList_eq_map (arms : List (Arm μ)) : movedList move arms = arms.map (·.moved move) := by
  induction arms with
  | nil => rfl
  | cons _ _ ih => rw [movedList, ih, List.map_cons]

theorem Stmt.movedList_eq_map (stmts : List (Stmt μ)) : movedList move stmts = stmts.map (·.moved move) := by
  induction stmts with
  | nil => rfl
  | cons _ _ ih => rw [movedList, ih, List.map_cons]

end Lists

section Parts

theorem Pattern.moved_variant (span : Span) (enumName name : String) (args : Option (List Pattern)) :
    (Pattern.variant span enumName name args).moved move =
      .variant (span.moved move) enumName name (args.map (·.map (·.moved move))) := by
  cases args <;> simp [moved]

theorem Stmt.moved_decl (span : Span) (modes : Modes) (name : String) (nameSpan : Span) (label : TypeLabel)
    (init : Option (Expr μ)) : (Stmt.decl span modes name nameSpan label init).moved move =
      .decl (span.moved move) modes name (nameSpan.moved move) (label.moved move) (init.map (·.moved move)) := by
  cases init <;> simp [moved]

@[simp]
theorem Span.moved_through (a b : Span) : (a.through b).moved move = (a.moved move).through (b.moved move) := rfl

@[simp]
theorem Pattern.span_moved (p : Pattern) : (p.moved move).span = p.span.moved move := by
  cases p with
  | variant _ _ _ args => cases args <;> simp [moved, span]
  | _ => simp [moved, span]

@[simp]
theorem Match.span_moved (m : Match μ) : (m.moved move).span = m.span.moved move := by
  cases m
  simp [moved, span]

@[simp]
theorem Match.note_moved (m : Match μ) : (m.moved move).note = m.note := by
  cases m
  simp [moved, note]

@[simp]
theorem Expr.span_moved (e : Expr μ) : (e.moved move).span = e.span.moved move := by
  cases e <;> simp [moved, span]

@[simp]
theorem Arm.pattern_moved (a : Arm μ) : (a.moved move).pattern = a.pattern.moved move := by
  cases a <;> simp [moved, pattern]

@[simp]
theorem TypeLabel.name_moved (label : TypeLabel) : (label.moved move).name = label.name := by
  cases label
  simp [moved, name]

@[simp]
theorem TypeLabel.span_moved (label : TypeLabel) : (label.moved move).span = label.span.moved move := by
  cases label
  simp [moved, span]

@[simp]
theorem TypeLabel.isGeneric_moved (label : TypeLabel) : (label.moved move).isGeneric = label.isGeneric := by
  cases label
  simp [moved, isGeneric, args]

mutual

@[simp]
theorem TypeLabel.text_moved : ∀ label : TypeLabel, (label.moved move).text = label.text
  | .mk _ _ [] => by simp [moved, text]
  | .mk _ _ (arg :: args) => by
    have hargs := TypeLabel.argsText_moved args
    simp only [TypeLabel.movedList_eq_map] at hargs
    simp [moved, text, text_moved arg, hargs]

theorem TypeLabel.argsText_moved : ∀ labels : List TypeLabel, argsText (movedList move labels) = argsText labels
  | [] => by simp [argsText]
  | label :: labels => by simp only [movedList, argsText, text_moved label, argsText_moved labels]

end

end Parts

section Identity

@[simp]
theorem Span.moved_id (s : Span) : s.moved id = s := rfl

mutual

theorem TypeLabel.moved_id : ∀ label : TypeLabel, label.moved id = label
  | .mk _ _ args => by simp only [TypeLabel.moved, Span.moved_id, TypeLabel.movedList_id args]

theorem TypeLabel.movedList_id : ∀ labels : List TypeLabel, TypeLabel.movedList id labels = labels
  | [] => by simp only [TypeLabel.movedList]
  | label :: labels => by simp only [TypeLabel.movedList, label.moved_id, TypeLabel.movedList_id labels]

end

mutual

theorem Pattern.moved_id : ∀ p : Pattern, p.moved id = p
  | .wildcard _ | .literal _ _ | .bind _ _ | .variant _ _ _ none => by simp only [Pattern.moved, Span.moved_id]
  | .variant _ _ _ (some args) => by simp only [Pattern.moved, Span.moved_id, Pattern.movedList_id args]

theorem Pattern.movedList_id : ∀ ps : List Pattern, Pattern.movedList id ps = ps
  | [] => by simp only [Pattern.movedList]
  | p :: ps => by simp only [Pattern.movedList, p.moved_id, Pattern.movedList_id ps]

end

/-- Every part of a tree stays as it is, by induction along the recursion of `moved`. -/
theorem Tree.moved_id : (∀ e : Expr μ, e.moved id = e) ∧ (∀ m : Match μ, m.moved id = m) ∧
    (∀ arms : List (Arm μ), Arm.movedList id arms = arms) ∧ (∀ a : Arm μ, a.moved id = a) ∧
    (∀ b : Block μ, b.moved id = b) ∧ (∀ ss : List (Stmt μ), Stmt.movedList id ss = ss) ∧
    (∀ s : Stmt μ, s.moved id = s) ∧ (∀ c : IfChain μ, c.moved id = c) ∧
    (∀ es : List (Expr μ), Expr.movedList id es = es) := by
  apply Expr.moved.mutual_induct <;> intros <;>
    simp_all only [Expr.moved, Match.moved, Arm.moved, Arm.movedList, Block.moved, Stmt.moved, Stmt.movedList,
      IfChain.moved, Expr.movedList, Span.moved_id, TypeLabel.moved_id, Pattern.moved_id]

theorem FuncDef.moved_id (f : FuncDef μ) : f.moved id = f := by
  have hparam (p : Param) : p.moved id = p := by simp [Param.moved, p.label.moved_id]
  have hlabel (label : TypeLabel) : label.moved id = label := label.moved_id
  obtain ⟨-, -, -, -, hbody, -⟩ := @Tree.moved_id μ
  simp [FuncDef.moved, hparam, hlabel, hbody]

end Identity

end LocLang
