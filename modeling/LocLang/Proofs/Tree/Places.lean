import LocLang.Proofs.Scopes
import LocLang.Tree.Map

namespace LocLang

variable {μ ν : Type}

/-- The parts of the body of a function. -/
inductive Node (μ : Type) where
  | expr (e : Expr μ)
  | exprs (es : List (Expr μ))
  | select (m : Match μ)
  | arms (arms : List (Arm μ))
  | arm (arm : Arm μ)
  | block (b : Block μ)
  | stmts (stmts : List (Stmt μ))
  | chain (c : IfChain μ)
  | stmt (stmt : Stmt μ)
  | init (init : Option (Expr μ))

/-- Where a part stands: the numbers of the parts on the way to it, each in the one around it, the last first. -/
abbrev TreePath := List Nat

/-- What declares a name: a function or a parameter by its number, a statement, or an arm. -/
inductive Origin where
  | function (index : Nat)
  | parameter (index : Nat)
  | variable (statement : TreePath)
  | binding (arm : TreePath)
deriving DecidableEq, Repr

/-- The names in sight with what declares them, nearest first. -/
abbrev Sight := List (String × Origin)

namespace Node

variable {n : Node μ} {k : Nat}

/-- The parts that a part is made of. -/
def children : Node μ → List (Node μ)
  | expr (.binary _ _ lhs rhs) => [expr lhs, expr rhs]
  | expr (.assign _ _ rhs) => [expr rhs]
  | expr (.call _ _ args) => [exprs args]
  | expr (.paren _ inner) => [expr inner]
  | expr (.select m) => [select m]
  | expr (.literal _ _) | expr (.ident _ _) | expr (.variant _ _ _) => []
  | exprs [] => []
  | exprs (e :: es) => [expr e, exprs es]
  | select (.mk _ _ scrutinee cases) => [expr scrutinee, arms cases]
  | arms [] => []
  | arms (first :: others) => [arm first, arms others]
  | arm (.block _ _ body) => [block body]
  | arm (.value _ _ value) => [expr value]
  | block (.mk _ statements) => [stmts statements]
  | stmts [] => []
  | stmts (first :: others) => [stmt first, stmts others]
  | chain (.only _ condition body) => [expr condition, block body]
  | chain (.orElse _ condition body other) => [expr condition, block body, block other]
  | chain (.orIf _ condition body next) => [expr condition, block body, chain next]
  | stmt (.block body) => [block body]
  | stmt (.decl _ _ _ _ _ value) => [init value]
  | stmt (.cond c) => [chain c]
  | stmt (.loop _ condition body) => [expr condition, block body]
  | stmt (.select m) => [select m]
  | stmt (.ret _ none) => []
  | stmt (.ret _ (some value)) => [expr value]
  | stmt (.expr _ value) => [expr value]
  | init none => []
  | init (some value) => [expr value]

/-- What a part at the given place declares for its child `k`. A variable is declared for the statements after the one
    that declares it, and not for its own initial value; an arm names what it matches for its own outcome. -/
def declaration? (place : TreePath) (k : Nat) : Node μ → Option (String × Origin)
  | stmts (.decl _ _ name _ _ _ :: _) => if k = 1 then some (name, .variable (0 :: place)) else none
  | arms (first :: _) =>
    match first.pattern with
    | .bind _ name => if k = 0 then some (name, .binding (0 :: place)) else none
    | _ => none
  | _ => none

/-- What is in sight of the child `k` of a part at the given place. -/
def sight (n : Node μ) (place : TreePath) (k : Nat) (outer : Sight) : Sight :=
  (n.declaration? place k).toList ++ outer

/-- The part at a place with what is in sight of it, `top` being in sight of the whole. -/
def part? (root : Node μ) (top : Sight) : TreePath → Option (Sight × Node μ)
  | [] => some (top, root)
  | k :: place => do
    let (outer, n) ← root.part? top place
    let child ← n.children[k]?
    return (n.sight place k outer, child)

theorem part?_cons {root child : Node μ} {top outer : Sight} {place : TreePath}
    (h : root.part? top place = some (outer, n)) (hchild : n.children[k]? = some child) :
    root.part? top (k :: place) = some (n.sight place k outer, child) := by
  simp [part?, h, hchild]

/-- The part with its notes changed. -/
def map (f : μ → ν) : Node μ → Node ν
  | expr e => expr (e.map f)
  | exprs es => exprs (Expr.mapList f es)
  | select m => select (m.map f)
  | arms cases => arms (Arm.mapList f cases)
  | arm a => arm (a.map f)
  | block b => block (b.map f)
  | stmts statements => stmts (Stmt.mapList f statements)
  | chain c => chain (c.map f)
  | stmt s => stmt (s.map f)
  | init value => init (value.map (·.map f))

theorem children_map (f : μ → ν) (n : Node μ) : (n.map f).children = n.children.map (·.map f) := by
  cases n with
  | expr e => cases e <;> rfl
  | exprs es => cases es <;> rfl
  | select m => cases m; rfl
  | arms cases => cases cases <;> rfl
  | arm a => cases a <;> rfl
  | block b => cases b; rfl
  | stmts statements => cases statements <;> rfl
  | chain c => cases c <;> rfl
  | stmt s =>
    cases s with
    | decl _ _ _ _ _ value => cases value <;> rfl
    | ret _ value => cases value <;> rfl
    | _ => rfl
  | init value => cases value <;> rfl

theorem declaration?_map (f : μ → ν) (n : Node μ) (place : TreePath) (k : Nat) :
    (n.map f).declaration? place k = n.declaration? place k := by
  cases n with
  | stmts statements =>
    cases statements with
    | nil => rfl
    | cons first =>
      cases first with
      | decl _ _ _ _ _ value => cases value <;> rfl
      | ret _ value => cases value <;> rfl
      | _ => rfl
  | arms cases =>
    cases cases with
    | nil => rfl
    | cons first => cases first <;> rfl
  | _ => rfl

/-- Only a declaration and an arm that names what it matches declare something. -/
theorem of_declaration?_eq_some {place : TreePath} {q : String × Origin} (h : n.declaration? place k = some q) :
    (∃ span modes name nameSpan label init others, n = stmts (.decl span modes name nameSpan label init :: others) ∧
      k = 1 ∧ q = (name, .variable (0 :: place))) ∨
    ∃ first others span name, n = arms (first :: others) ∧ first.pattern = .bind span name ∧ k = 0 ∧
      q = (name, .binding (0 :: place)) := by
  unfold declaration? at h
  split at h
  · split at h
    · cases h
      exact .inl ⟨_, _, _, _, _, _, _, rfl, ‹k = 1›, rfl⟩
    · cases h
  · rename_i first others
    split at h
    · rename_i span name hpattern
      split at h
      · cases h
        exact .inr ⟨first, others, span, name, rfl, hpattern, ‹k = 0›, rfl⟩
      · cases h
    · cases h
  · cases h

/-- What an arm names is in sight of no other arm. -/
theorem declaration?_other_arms (cases : List (Arm μ)) (place : TreePath) :
    (arms cases).declaration? place 1 = none := by
  cases cases with
  | nil => rfl
  | cons =>
    rw [declaration?]
    split <;> rfl

/-- Arms are a part of a match, or of arms with one more before them. -/
theorem of_children_eq_arms {cases : List (Arm μ)} (h : n.children[k]? = some (arms cases)) :
    k = 1 ∧ ((∃ span note scrutinee, n = select (.mk span note scrutinee cases)) ∨ ∃ first,
    n = arms (first :: cases)) := by
  unfold children at h
  split at h
  all_goals rcases k with _ | _ | _ | k <;> cases h
  · exact ⟨rfl, .inl ⟨_, _, _, rfl⟩⟩
  · exact ⟨rfl, .inr ⟨_, rfl⟩⟩

/-- An arm is the first of some arms. -/
theorem of_children_eq_arm {a : Arm μ} (h : n.children[k]? = some (arm a)) :
    k = 0 ∧ ∃ others, n = arms (a :: others) := by
  unfold children at h
  split at h
  all_goals rcases k with _ | _ | _ | k <;> cases h
  exact ⟨rfl, _, rfl⟩

/-- Arguments are a part of a call, or of arguments with one more before them. -/
theorem of_children_eq_exprs {args : List (Expr μ)} (h : n.children[k]? = some (exprs args)) :
    (k = 0 ∧ ∃ span callee, n = expr (.call span callee args)) ∨ k = 1 ∧ ∃ first, n = exprs (first :: args) := by
  unfold children at h
  split at h
  all_goals rcases k with _ | _ | _ | k <;> cases h
  · exact .inl ⟨rfl, _, _, rfl⟩
  · exact .inr ⟨rfl, _, rfl⟩

/-- A match is a part of an expression or of a statement. -/
theorem of_children_eq_select {m : Match μ} (h : n.children[k]? = some (select m)) :
    k = 0 ∧ (n = expr (.select m) ∨ n = stmt (.select m)) := by
  unfold children at h
  split at h
  all_goals rcases k with _ | _ | _ | k <;> cases h
  · exact ⟨rfl, .inl rfl⟩
  · exact ⟨rfl, .inr rfl⟩

end Node

/-- What is in sight of the body of a function: its parameters and the functions of the program. -/
def FuncDef.sight (f : FuncDef μ) (functions : List String) : Sight :=
  (f.params.zipIdx.map fun p => (p.1.name, Origin.parameter p.2)).reverse ++
    (functions.zipIdx.map fun g => (g.1, Origin.function g.2)).reverse

namespace Scopes

variable {α β : Type}

/-- All declarations, innermost first. -/
def entries (s : Scopes α) : List (Scope.Entry α) :=
  s.frames.flatten

theorem resolve?_eq_find? (s : Scopes α) (name : String) : s.resolve? name = s.entries.find? (·.name = name) := by
  rw [resolve?, entries, List.find?_flatten]
  rfl

@[simp]
theorem entries_push (s : Scopes α) : s.push.entries = s.entries := by
  simp [entries, push, frames]

theorem entries_declare (s : Scopes α) (name : String) (a : α) :
    (s.declare name a).entries = ⟨name, s.depth, a⟩ :: s.entries := by
  obtain ⟨inner, base⟩ := s
  cases inner with
  | nil | cons frame outer => simp [entries, declare, frames]

end Scopes

/-- Whether two tables hold the declarations of the same origins, innermost first, and nothing else, but for what is
    built into the first one. The relation says what an origin declares in the one and in the other. -/
inductive Aligned {α β : Type} (declares : Origin → String → α → β → Prop) (builtin : List (Scope.Entry α)) :
    Sight → List (Scope.Entry α) → List (Scope.Entry β) → Prop where
  | start : Aligned declares builtin [] builtin []
  | declared {name : String} {origin : Origin} {a : α} {b : β} {sight : Sight} {left : List (Scope.Entry α)}
      {right : List (Scope.Entry β)} {i j : Nat} (head : declares origin name a b)
      (tail : Aligned declares builtin sight left right) :
      Aligned declares builtin ((name, origin) :: sight) (⟨name, i, a⟩ :: left) (⟨name, j, b⟩ :: right)

namespace Aligned

variable {α β : Type} {declares : Origin → String → α → β → Prop} {builtin : List (Scope.Entry α)} {sight : Sight}
  {s : Scopes α} {t : Scopes β} {name : String}

theorem push (h : Aligned declares builtin sight s.entries t.entries) :
    Aligned declares builtin sight s.push.entries t.push.entries := by
  rwa [Scopes.entries_push, Scopes.entries_push]

theorem declare (h : Aligned declares builtin sight s.entries t.entries) {origin : Origin} {a : α}
    {b : β} (hdeclares : declares origin name a b) :
    Aligned declares builtin ((name, origin) :: sight) (s.declare name a).entries (t.declare name b).entries := by
  rw [Scopes.entries_declare, Scopes.entries_declare]
  exact .declared hdeclares h

/-- A name refers in both tables to what the nearest declaration in sight declares, or is not in the second one, and in
    the first one at most built in. -/
theorem find? {left : List (Scope.Entry α)} {right : List (Scope.Entry β)}
    (h : Aligned declares builtin sight left right) (name : String) :
    (∃ origin a b i j, sight.lookup name = some origin ∧ left.find? (·.name = name) = some ⟨name, i, a⟩ ∧
      right.find? (·.name = name) = some ⟨name, j, b⟩ ∧ declares origin name a b) ∨
    left.find? (·.name = name) = builtin.find? (·.name = name) ∧ right.find? (·.name = name) = none := by
  induction h with
  | start => exact .inr ⟨rfl, rfl⟩
  | @declared declared origin a b _ _ _ i j head _ ih =>
    by_cases hname : declared = name
    · subst hname
      exact .inl ⟨origin, a, b, i, j, by simp, by simp, by simp, head⟩
    · rw [List.lookup_cons, beq_false_of_ne (Ne.symm hname), List.find?_cons_of_neg (by simpa using hname),
        List.find?_cons_of_neg (by simpa using hname)]
      exact ih

/-- A name that refers to something in the second table refers to what the same declaration declares in the first. -/
theorem resolve (h : Aligned declares builtin sight s.entries t.entries) {b : β} (hb : t.Finds name b) :
    ∃ origin a, sight.lookup name = some origin ∧ s.Finds name a ∧ declares origin name a b := by
  obtain ⟨entry, hentry, rfl⟩ := hb
  rw [Scopes.resolve?_eq_find?] at hentry
  rcases h.find? name with ⟨origin, a, b, i, j, hsight, hleft, hright, hdeclares⟩ | ⟨-, hnone⟩
  · rw [hright] at hentry
    cases hentry
    exact ⟨origin, a, hsight, ⟨_, (s.resolve?_eq_find? name).trans hleft, rfl⟩, hdeclares⟩
  · rw [hnone] at hentry
    cases hentry

/-- A name that refers to something in the first table refers to it by a declaration, or to what is built in. -/
theorem resolve_left (h : Aligned declares builtin sight s.entries t.entries) {a : α} (ha : s.Finds name a) :
    (∃ origin b, t.Finds name b ∧ declares origin name a b) ∨ ∃ entry ∈ builtin, entry.value = a := by
  obtain ⟨entry, hentry, rfl⟩ := ha
  rw [Scopes.resolve?_eq_find?] at hentry
  rcases h.find? name with ⟨origin, a, b, i, j, -, hleft, hright, hdeclares⟩ | ⟨hbuiltin, -⟩
  · rw [hleft] at hentry
    cases hentry
    exact .inl ⟨origin, b, ⟨_, (t.resolve?_eq_find? name).trans hright, rfl⟩, hdeclares⟩
  · exact .inr ⟨entry, List.mem_of_find?_eq_some (hbuiltin.symm.trans hentry), rfl⟩

end Aligned

end LocLang
