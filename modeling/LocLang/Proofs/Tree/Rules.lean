import LocLang.Tree.Map

namespace LocLang

/-- What may stand in a tree. -/
structure TreeRules where
  literal : Literal → Prop
  label : TypeLabel → Prop
  name : String → Prop
  /-- Whether a block may be an arm of a match that is an expression. -/
  blockArm : Prop
  loop : Prop := True

variable {μ ν : Type} (rules : TreeRules)

def Pattern.Obeys : Pattern → Prop
  | .literal _ value => rules.literal value
  | .bind _ name => rules.name name
  | .wildcard _ | .variant _ _ _ _ => True

mutual

def Expr.Obeys : Expr μ → Prop
  | .literal _ value => rules.literal value
  | .ident _ _ | .variant _ _ _ => True
  | .binary _ _ lhs rhs => lhs.Obeys ∧ rhs.Obeys
  | .assign _ target rhs => target.Obeys ∧ rhs.Obeys
  | .call _ callee args => callee.Obeys ∧ Expr.ObeyAll args
  | .paren _ inner => inner.Obeys
  | .select (.mk _ _ scrutinee arms) => scrutinee.Obeys ∧ Arm.ObeyAll rules.blockArm arms

def Expr.ObeyAll : List (Expr μ) → Prop
  | [] => True
  | e :: es => e.Obeys ∧ Expr.ObeyAll es

def Arm.ObeyAll (blockArm : Prop) : List (Arm μ) → Prop
  | [] => True
  | arm :: arms => arm.Obeys blockArm ∧ Arm.ObeyAll blockArm arms

def Arm.Obeys (blockArm : Prop) : Arm μ → Prop
  | .block _ pattern body => blockArm ∧ pattern.Obeys rules ∧ body.Obeys
  | .value _ pattern value => pattern.Obeys rules ∧ value.Obeys

def Block.Obeys : Block μ → Prop
  | .mk _ stmts => Stmt.ObeyAll stmts

def Stmt.ObeyAll : List (Stmt μ) → Prop
  | [] => True
  | stmt :: stmts => stmt.Obeys ∧ Stmt.ObeyAll stmts

def IfChain.Obeys : IfChain μ → Prop
  | .only _ condition body => condition.Obeys ∧ body.Obeys
  | .orElse _ condition body other => condition.Obeys ∧ body.Obeys ∧ other.Obeys
  | .orIf _ condition body next => condition.Obeys ∧ body.Obeys ∧ next.Obeys

def Stmt.Obeys : Stmt μ → Prop
  | .block body => body.Obeys
  | .decl _ _ name _ label init => rules.name name ∧ rules.label label ∧ Expr.ObeyIfAny init
  | .cond chain => chain.Obeys
  | .loop _ condition body => rules.loop ∧ condition.Obeys ∧ body.Obeys
  | .select (.mk _ _ scrutinee arms) => scrutinee.Obeys ∧ Arm.ObeyAll True arms
  | .ret _ value => Expr.ObeyIfAny value
  | .expr _ value => value.Obeys

def Expr.ObeyIfAny : Option (Expr μ) → Prop
  | none => True
  | some e => e.Obeys

end

variable {rules} in
theorem Arm.obeyAll_iff {blockArm : Prop} {arms : List (Arm μ)} :
    Arm.ObeyAll rules blockArm arms ↔ ∀ arm ∈ arms, arm.Obeys rules blockArm := by
  induction arms with
  | nil => simp [ObeyAll]
  | cons _ _ ih => simp [ObeyAll, ih]

section Decidable

private abbrev both {p q : Prop} (hp : Decidable p) (hq : Decidable q) : Decidable (p ∧ q) :=
  instDecidableAnd

variable [DecidablePred rules.literal] [DecidablePred rules.label] [DecidablePred rules.name]

instance Pattern.decidableObeys : (p : Pattern) → Decidable (p.Obeys rules)
  | .literal _ value => inferInstanceAs (Decidable (rules.literal value))
  | .bind _ name => inferInstanceAs (Decidable (rules.name name))
  | .wildcard _ | .variant _ _ _ _ => .isTrue trivial

variable [Decidable rules.blockArm] [Decidable rules.loop]

mutual

instance Expr.decidableObeys : (e : Expr μ) → Decidable (e.Obeys rules)
  | .literal _ value => inferInstanceAs (Decidable (rules.literal value))
  | .ident _ _ | .variant _ _ _ => .isTrue trivial
  | .binary _ _ lhs rhs => both (Expr.decidableObeys lhs) (Expr.decidableObeys rhs)
  | .assign _ target rhs => both (Expr.decidableObeys target) (Expr.decidableObeys rhs)
  | .call _ callee args => both (Expr.decidableObeys callee) (Expr.decidableObeyAll args)
  | .paren _ inner => Expr.decidableObeys inner
  | .select (.mk _ _ scrutinee arms) => both (Expr.decidableObeys scrutinee) (Arm.decidableObeyAll rules.blockArm arms)

instance Expr.decidableObeyAll : (es : List (Expr μ)) → Decidable (Expr.ObeyAll rules es)
  | [] => .isTrue trivial
  | e :: es => both (Expr.decidableObeys e) (Expr.decidableObeyAll es)

instance Arm.decidableObeyAll (blockArm : Prop) [h : Decidable blockArm] :
    (arms : List (Arm μ)) → Decidable (Arm.ObeyAll rules blockArm arms)
  | [] => .isTrue trivial
  | .block _ pattern body :: arms =>
    both (both h (both (pattern.decidableObeys rules) (Block.decidableObeys body))) (Arm.decidableObeyAll blockArm arms)
  | .value _ pattern value :: arms =>
    both (both (pattern.decidableObeys rules) (Expr.decidableObeys value)) (Arm.decidableObeyAll blockArm arms)

instance Block.decidableObeys : (b : Block μ) → Decidable (b.Obeys rules)
  | .mk _ stmts => Stmt.decidableObeyAll stmts

instance Stmt.decidableObeyAll : (stmts : List (Stmt μ)) → Decidable (Stmt.ObeyAll rules stmts)
  | [] => .isTrue trivial
  | stmt :: stmts => both (Stmt.decidableObeys stmt) (Stmt.decidableObeyAll stmts)

instance IfChain.decidableObeys : (c : IfChain μ) → Decidable (c.Obeys rules)
  | .only _ condition body => both (Expr.decidableObeys condition) (Block.decidableObeys body)
  | .orElse _ condition body other =>
    both (Expr.decidableObeys condition) (both (Block.decidableObeys body) (Block.decidableObeys other))
  | .orIf _ condition body next =>
    both (Expr.decidableObeys condition) (both (Block.decidableObeys body) (IfChain.decidableObeys next))

instance Stmt.decidableObeys : (stmt : Stmt μ) → Decidable (stmt.Obeys rules)
  | .block body => Block.decidableObeys body
  | .decl _ _ name _ label none => inferInstanceAs (Decidable (rules.name name ∧ rules.label label ∧ True))
  | .decl _ _ _ _ _ (some init) => both inferInstance (both inferInstance (Expr.decidableObeys init))
  | .cond chain => IfChain.decidableObeys chain
  | .loop _ condition body => both inferInstance (both (Expr.decidableObeys condition) (Block.decidableObeys body))
  | .select (.mk _ _ scrutinee arms) => both (Expr.decidableObeys scrutinee) (Arm.decidableObeyAll True arms)
  | .ret _ none => .isTrue trivial
  | .ret _ (some value) => Expr.decidableObeys value
  | .expr _ value => Expr.decidableObeys value

end

end Decidable

/-- Whether a function obeys rules, its head included. -/
structure FuncDef.Obeys (f : FuncDef μ) : Prop where
  name : rules.name f.name
  params : ∀ p ∈ f.params, rules.name p.name ∧ rules.label p.label
  result : ∀ label ∈ f.result, rules.label label
  body : f.body.Obeys rules

/-- Whether all functions of a program obey rules. -/
def Program.Obeys (p : Program μ) : Prop :=
  ∀ f ∈ p.funcs, f.Obeys rules

section Decidable

variable [DecidablePred rules.literal] [DecidablePred rules.label] [DecidablePred rules.name]
  [Decidable rules.blockArm] [Decidable rules.loop]

instance FuncDef.decidableObeys (f : FuncDef μ) : Decidable (f.Obeys rules) :=
  decidable_of_iff
    (rules.name f.name ∧ (∀ p ∈ f.params, rules.name p.name ∧ rules.label p.label) ∧
      (∀ label ∈ f.result.toList, rules.label label) ∧ f.body.Obeys rules)
    ⟨fun ⟨name, params, result, body⟩ => ⟨name, params, fun l hl => result l (Option.mem_toList.2 hl), body⟩,
      fun h => ⟨h.name, h.params, fun l hl => h.result l (Option.mem_toList.1 hl), h.body⟩⟩

instance Program.decidableObeys (p : Program μ) : Decidable (p.Obeys rules) :=
  inferInstanceAs (Decidable (∀ f ∈ p.funcs, f.Obeys rules))

end Decidable

attribute [local simp] Expr.Obeys Expr.ObeyAll Arm.ObeyAll Arm.Obeys Block.Obeys Stmt.ObeyAll IfChain.Obeys Stmt.Obeys
  Expr.ObeyIfAny

section Map

attribute [local simp] Expr.map Expr.mapList Match.map Arm.map Arm.mapList Block.map IfChain.map Stmt.map Stmt.mapList

variable {rules} (f : μ → ν)

/-- Notes do not count. -/
theorem Tree.obeys_map :
    (∀ e : Expr μ, (e.map f).Obeys rules ↔ e.Obeys rules) ∧
    (∀ blockArm (arms : List (Arm μ)),
      Arm.ObeyAll rules blockArm (Arm.mapList f arms) ↔ Arm.ObeyAll rules blockArm arms) ∧
    (∀ blockArm (arm : Arm μ), (arm.map f).Obeys rules blockArm ↔ arm.Obeys rules blockArm) ∧
    (∀ b : Block μ, (b.map f).Obeys rules ↔ b.Obeys rules) ∧
    (∀ stmts : List (Stmt μ), Stmt.ObeyAll rules (Stmt.mapList f stmts) ↔ Stmt.ObeyAll rules stmts) ∧
    (∀ stmt : Stmt μ, (stmt.map f).Obeys rules ↔ stmt.Obeys rules) ∧
    (∀ c : IfChain μ, (c.map f).Obeys rules ↔ c.Obeys rules) ∧
    (∀ e : Option (Expr μ), Expr.ObeyIfAny rules (e.map (·.map f)) ↔ Expr.ObeyIfAny rules e) ∧
    (∀ es : List (Expr μ), Expr.ObeyAll rules (Expr.mapList f es) ↔ Expr.ObeyAll rules es) := by
  apply Expr.Obeys.mutual_induct rules
  -- a declaration and a return, whose expression may be missing
  case case12 | case16 =>
    intros
    cases ‹Option _› <;> simp_all
  all_goals
    intros
    simp_all

theorem Block.obeys_map (b : Block μ) : (b.map f).Obeys rules ↔ b.Obeys rules :=
  (Tree.obeys_map f).2.2.2.1 b

end Map

namespace TreeRules

/-- No rules at all. -/
def free : TreeRules where
  literal _ := True
  label _ := True
  name _ := True
  blockArm := True

/-- There are no loops. -/
def loopless : TreeRules :=
  { free with loop := False }

instance : DecidablePred loopless.literal := fun _ => .isTrue trivial
instance : DecidablePred loopless.label := fun _ => .isTrue trivial
instance : DecidablePred loopless.name := fun _ => .isTrue trivial
instance : Decidable loopless.blockArm := .isTrue trivial
instance : Decidable loopless.loop := .isFalse id

end TreeRules

theorem Pattern.obeys_free (p : Pattern) : p.Obeys .free := by
  cases p <;> trivial

theorem Tree.obeys_free : (∀ e : Expr μ, e.Obeys .free) ∧
    (∀ blockArm (arms : List (Arm μ)), blockArm → Arm.ObeyAll .free blockArm arms) ∧
    (∀ blockArm (arm : Arm μ), blockArm → arm.Obeys .free blockArm) ∧ (∀ b : Block μ, b.Obeys .free) ∧
    (∀ stmts : List (Stmt μ), Stmt.ObeyAll .free stmts) ∧ (∀ stmt : Stmt μ, stmt.Obeys .free) ∧
    (∀ c : IfChain μ, c.Obeys .free) ∧ (∀ e : Option (Expr μ), Expr.ObeyIfAny .free e) ∧
    (∀ es : List (Expr μ), Expr.ObeyAll .free es) := by
  have := Pattern.obeys_free
  apply Expr.Obeys.mutual_induct .free <;> intros <;> simp_all [TreeRules.free]

theorem Expr.obeys_free (e : Expr μ) : e.Obeys .free := Tree.obeys_free.1 e
theorem Arm.obeyAll_free (arms : List (Arm μ)) : ObeyAll .free True arms := Tree.obeys_free.2.1 _ arms trivial
theorem Arm.obeys_free (arm : Arm μ) : arm.Obeys .free True := Tree.obeys_free.2.2.1 _ arm trivial
theorem Block.obeys_free (b : Block μ) : b.Obeys .free := Tree.obeys_free.2.2.2.1 b
theorem Stmt.obeyAll_free (stmts : List (Stmt μ)) : ObeyAll .free stmts := Tree.obeys_free.2.2.2.2.1 stmts
theorem Stmt.obeys_free (stmt : Stmt μ) : stmt.Obeys .free := Tree.obeys_free.2.2.2.2.2.1 stmt
theorem IfChain.obeys_free (c : IfChain μ) : c.Obeys .free := Tree.obeys_free.2.2.2.2.2.2.1 c
theorem Expr.obeyIfAny_free (e : Option (Expr μ)) : ObeyIfAny .free e := Tree.obeys_free.2.2.2.2.2.2.2.1 e
theorem Expr.obeyAll_free (es : List (Expr μ)) : ObeyAll .free es := Tree.obeys_free.2.2.2.2.2.2.2.2 es

end LocLang
