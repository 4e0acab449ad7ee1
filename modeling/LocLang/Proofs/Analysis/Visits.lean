import LocLang.Proofs.Analysis.Program
import LocLang.Proofs.Tree.Places

namespace LocLang.Walk

variable {α β : Type} {env : Env} {init : Option (Expr Unit)} {place : TreePath}
  {stmts : List (Stmt Unit)}

/-- A part of a function, with what its walk is told about it. -/
inductive Task where
  | expr (expected : Ty) (e : Expr Unit)
  | arguments (params : List Ty) (args : List (Expr Unit))
  | selection (expected : Ty) (m : Match Unit)
  | armList (expected type : Ty) (enumName : Option String) (sofar : Ty) (arms : List (Arm Unit))
  | armBody (expected sofar : Ty) (arm : Arm Unit)
  | block (b : Block Unit)
  | stmtList (stmts : List (Stmt Unit))
  | chain (c : IfChain Unit)
  | statement (stmt : Stmt Unit)
  | initializer (type : Ty) (init : Option (Expr Unit))

namespace Task

def node : Task → Node Unit
  | expr _ e => .expr e
  | arguments _ args => .exprs args
  | selection _ m => .select m
  | armList _ _ _ _ arms => .arms arms
  | armBody _ _ arm => .arm arm
  | block b => .block b
  | stmtList stmts => .stmts stmts
  | chain c => .chain c
  | statement stmt => .stmt stmt
  | initializer _ init => .init init

def run (env : Env) : Task → Walk (Node Ty)
  | expr expected e => do
    let (_, e) ← Walk.expr env expected e
    pure (.expr e)
  | arguments params args => do
    let args ← Walk.arguments env params args
    pure (.exprs args)
  | selection expected m => do
    let (_, m) ← Walk.selection env expected m
    pure (.select m)
  | armList expected type enumName sofar arms => do
    let (_, arms) ← Walk.armList env expected type enumName sofar arms
    pure (.arms arms)
  | armBody expected sofar arm => do
    let (_, arm) ← Walk.armBody env expected sofar arm
    pure (.arm arm)
  | block b => do
    let b ← Walk.block env b
    pure (.block b)
  | stmtList stmts => do
    let stmts ← Walk.stmtList env stmts
    pure (.stmts stmts)
  | chain c => do
    let c ← Walk.chain env c
    pure (.chain c)
  | statement stmt => do
    let stmt ← Walk.statement env stmt
    pure (.stmt stmt)
  | initializer type init => do
    let init ← Walk.initializer env type init
    pure (.init init)

/-- What is done about the pieces of a part: for each of them the steps that come before its walk, and what its walk is
    told. -/
def calls (env : Env) : Task → List (Walk Task)
  | expr _ (.literal _ _) | expr _ (.ident _ _) | expr _ (.variant _ _ _) => []
  | expr _ (.binary _ _ lhs rhs) =>
    [ pure (expr .unknown lhs),
      do
        let _ ← Walk.expr env .unknown lhs
        pure (expr .unknown rhs) ]
  | expr _ (.assign _ (.ident targetSpan name) rhs) =>
    [ do
        let symbol ← lookup name targetSpan
        reportIf (assignIssue? symbol) targetSpan
        pure (expr symbol.type rhs) ]
  | expr _ (.assign _ target rhs) =>
    [ do
        report .assignToExpression target.span
        pure (expr .unknown rhs) ]
  | expr _ (.call span (.ident calleeSpan name) args) =>
    [ do
        let symbol ← lookup name calleeSpan
        if symbol.kind = .function then
          if args.length ≠ symbol.params.length then
            report (.callArity symbol.name symbol.params.length args.length) span
          pure (arguments symbol.params args)
        else giveUp (.notAFunction name) calleeSpan ]
  | expr _ (.call _ callee args) =>
    [ do
        report .unnamedCallee callee.span
        pure (arguments [] args) ]
  | expr expected (.paren _ inner) => [pure (expr expected inner)]
  | expr expected (.select m) => [pure (selection expected m)]
  | arguments _ [] => []
  | arguments params (arg :: args) =>
    [ pure (expr (params.head?.getD .unknown) arg),
      do
        let _ ← Walk.expr env (params.head?.getD .unknown) arg
        pure (arguments params.tail args) ]
  | selection expected (.mk _ _ scrutinee arms) =>
    [ pure (expr .unknown scrutinee),
      do
        let (type, _) ← Walk.expr env .unknown scrutinee
        let enumName := scrutinee.enumName? (← scopes)
        pure (armList expected type enumName .unknown arms) ]
  | armList _ _ _ _ [] => []
  | armList expected type enumName sofar (arm :: arms) =>
    [ do
        push
        pattern env.enums type enumName arm.pattern
        pure (armBody expected sofar arm),
      do
        let (joined, _) ← inScope false do
          pattern env.enums type enumName arm.pattern
          Walk.armBody env expected sofar arm
        pure (armList expected type enumName joined arms) ]
  | armBody _ _ (.block _ _ body) => [pure (block body)]
  | armBody expected _ (.value _ _ value) => [pure (expr (if expected = .void then .unknown else expected) value)]
  | block (.mk _ stmts) =>
    [ do
        push
        pure (stmtList stmts) ]
  | stmtList [] => []
  | stmtList (stmt :: stmts) =>
    [ pure (statement stmt),
      do
        let _ ← Walk.statement env stmt
        pure (stmtList stmts) ]
  | chain (.only _ condition body) =>
    [ pure (expr .bool condition),
      do
        let _ ← Walk.expr env .bool condition
        pure (block body) ]
  | chain (.orElse _ condition body other) =>
    [ pure (expr .bool condition),
      do
        let _ ← Walk.expr env .bool condition
        pure (block body),
      do
        let _ ← Walk.expr env .bool condition
        let _ ← Walk.block env body
        pure (block other) ]
  | chain (.orIf _ condition body next) =>
    [ pure (expr .bool condition),
      do
        let _ ← Walk.expr env .bool condition
        pure (block body),
      do
        let _ ← Walk.expr env .bool condition
        let _ ← Walk.block env body
        pure (chain next) ]
  | statement (.block body) => [pure (block body)]
  | statement (.decl _ _ name _ label init) =>
    [ do
        let (type, _) ← resolveType env.enums (some label)
        if type = .void then report (.voidVariable name) label.span
        pure (initializer (if type = .void then .unknown else type) init) ]
  | statement (.cond c) => [pure (chain c)]
  | statement (.loop _ condition body) =>
    [ pure (expr .bool condition),
      do
        let _ ← Walk.expr env .bool condition
        pure (block body) ]
  | statement (.select m) => [pure (selection .void m)]
  | statement (.ret _ none) => []
  | statement (.ret _ (some value)) =>
    [ do
        if env.result = .void then report .unexpectedReturnValue value.span
        pure (expr (if env.result = .void then .unknown else env.result) value) ]
  | statement (.expr _ value) => [pure (expr .unknown value)]
  | initializer _ none => []
  | initializer type (some init) => [pure (expr type init)]

end Task

/-- Starts the walk of a function and gives what its body is walked against. -/
def enter (enums : EnumTable) (f : FuncDef Unit) (declared : Bool) : Walk Env := do
  tell (.functionEntered f.name)
  push
  let (result, _) ← headType enums declared f.result
  parameters enums declared f.params
  pure ⟨enums, result⟩

/-- The state after the walk of the head of a program and of the functions before the one of the given number. -/
def before (p : Program Unit) (strict : Bool) (index : Nat) : State :=
  let header := Header.ofProgram p
  (definitions header.enums (header.defs.take index) ⟨strict, header.scopes, header.log⟩).2

/-- The parts of a function that are walked, with their places and the states that their walk starts from. The function
    is the one of the given number. -/
inductive Visits (p : Program Unit) (strict : Bool) (index : Nat) (env : Env) : TreePath → Task → State → Prop where
  | body {f : FuncDef Unit} {declared : Bool} {s : State} (hf : (Header.ofProgram p).defs[index]? = some (f, declared))
      (henter : (enter (Header.ofProgram p).enums f declared).Gives (before p strict index) env s) :
      Visits p strict index env [] (.block f.body) s
  | call {place : TreePath} {t t' : Task} {s s' : State} {k : Nat} {x : Walk Task}
      (hvisit : Visits p strict index env place t s) (hx : (t.calls env)[k]? = some x) (hcall : x.Gives s t' s') :
      Visits p strict index env (k :: place) t' s'

variable {enumName : Option String} {expected sofar type : Ty} {arms : List (Arm Unit)} {t : Task}

/-- At every place one part is walked, from one state. -/
theorem Visits.unique {p : Program Unit} {strict : Bool} {index : Nat} {env' : Env} {t' : Task} {s s' : State}
    (h : Visits p strict index env place t s) (h' : Visits p strict index env' place t' s') :
    env = env' ∧ t = t' ∧ s = s' := by
  induction h generalizing t' s' with
  | body hf henter =>
    cases h' with
    | body hf' henter' =>
      cases hf.symm.trans hf'
      obtain ⟨rfl, rfl⟩ := henter.unique henter'
      exact ⟨rfl, rfl, rfl⟩
  | call _ hx hcall ih =>
    cases h' with
    | call hvisit' hx' hcall' =>
      obtain ⟨rfl, rfl, rfl⟩ := ih hvisit'
      cases hx.symm.trans hx'
      exact ⟨rfl, hcall.unique hcall'⟩

theorem Task.eq_of_arm_call {arm : Arm Unit} {x : Walk Task} {s s' : State}
    (hx : ((armList expected type enumName sofar (arm :: arms)).calls env)[0]? = some x) (hcall : x.Gives s t s') :
    t = armBody expected sofar arm := by
  cases hx
  obtain ⟨_, _, -, hcall⟩ := gives_bind.1 hcall
  obtain ⟨_, _, -, hcall⟩ := gives_bind.1 hcall
  exact (gives_pure.1 hcall).1

/-- The other arms are walked like the first one. -/
theorem Task.eq_of_arms_call {arm : Arm Unit} {x : Walk Task} {s s' : State}
    (hx : ((armList expected type enumName sofar (arm :: arms)).calls env)[1]? = some x) (hcall : x.Gives s t s') :
    ∃ joined, t = armList expected type enumName joined arms := by
  cases hx
  obtain ⟨⟨joined, _⟩, _, -, hcall⟩ := gives_bind.1 hcall
  exact ⟨joined, (gives_pure.1 hcall).1⟩

/-- Whether work ends with a result that has a property, and only adds to the log. -/
structure Ends (P : α → Prop) (x : Walk α) : Prop where
  result : ∀ {s : State} {a : α} {s' : State}, x.Gives s a s' → P a ∧ s.log.Extends s'.log

namespace Ends

variable {P : α → Prop}

protected theorem pure {a : α} (h : P a) : Ends P (pure a) := by
  constructor
  intro s b s' hpure
  obtain ⟨rfl, rfl⟩ := gives_pure.1 hpure
  exact ⟨h, .refl _⟩

theorem bind {x : Walk β} {f : β → Walk α} (hx : Honest x) (hf : ∀ b, Ends P (f b)) : Ends P (x >>= f) := by
  constructor
  intro s a s' h
  obtain ⟨b, s1, hfirst, hrest⟩ := gives_bind.1 h
  obtain ⟨ha, hextends⟩ := (hf b).result hrest
  exact ⟨ha, (hx.extends_of_gives hfirst).trans hextends⟩

end Ends

/-- Whether a walk that finds nothing fatal declares nothing that lasts. -/
structure Stays (x : Walk α) : Prop where
  honest : Honest x
  entries_eq : ∀ {s : State} {a : α} {s' : State}, x.Gives s a s' → s'.log.Clean → s'.scopes.entries = s.scopes.entries

namespace Stays

theorem of_scopes_eq {x : Walk α} (hhonest : Honest x)
    (h : ∀ {s : State} {a : α} {s' : State}, x.Gives s a s' → s'.log.Clean → s'.scopes = s.scopes) : Stays x :=
  ⟨hhonest, fun hx hclean => congrArg Scopes.entries (h hx hclean)⟩

theorem bind {x : Walk α} {f : α → Walk β} (hx : Stays x) (hf : ∀ a, Stays (f a)) : Stays (x >>= f) where
  honest := hx.honest.bind fun a => (hf a).honest
  entries_eq h hclean := by
    obtain ⟨a, s1, hfirst, hrest⟩ := gives_bind.1 h
    have hclean1 := ((hf a).honest.extends_of_gives hrest).clean hclean
    rw [(hf a).entries_eq hrest hclean, hx.entries_eq hfirst hclean1]

protected theorem pure (a : α) : Stays (pure a : Walk α) :=
  of_scopes_eq (.pure a) fun h _ => by rw [(gives_pure.1 h).2]

theorem report (issue : Issue) (span : Span) : Stays (report issue span) :=
  of_scopes_eq (.report issue span) fun h _ => by rw [gives_report.1 h]

theorem reportIf (issue : Option Issue) (span : Span) : Stays (reportIf issue span) := by
  cases issue with
  | some => exact report _ _
  | none => exact .pure _

/-- Walks that are accepted in the scopes where they start. -/
theorem of_accepts {x : Walk α} {l : α → List (Match Ty)} {F : Scopes Symbol → α → Prop}
    (h : ∀ table, Accepts (State.At table [] True) x fun a => State.At table (l a) (F table a)) : Stays x :=
  of_scopes_eq (h .empty).steps.honest fun hx hclean => ((h _).of_gives hx hclean).scopes

theorem push : Stays push where
  honest := .push
  entries_eq h _ := by rw [gives_push.1 h, Scopes.entries_push]

theorem giveUp {issue : Issue} (habort : issue.aborts = true) (span : Span) : Stays (giveUp issue span : Walk α) :=
  of_scopes_eq (Steps.giveUp habort span).honest fun h _ => absurd h gives_giveUp

theorem lookup (name : String) (span : Span) : Stays (lookup name span) :=
  of_accepts fun _ => .lookup name span

theorem scopes : Stays scopes :=
  of_accepts fun _ => .scopes

theorem resolveType (enums : EnumTable) (label : TypeLabel) : Stays (resolveType enums (some label)) :=
  of_accepts fun _ => .resolveType enums label

theorem pattern {enums : EnumTable} {p : Pattern} (h : ∀ span name, p ≠ .bind span name) :
    Stays (pattern enums type enumName p) := by
  have hscopes (table : Scopes Symbol) : p.scopes type enumName table = table := by
    cases p with
    | bind span name => exact absurd rfl (h span name)
    | _ => rfl
  exact of_accepts fun _ => (Accepts.pattern enums type enumName p).mono fun _ _ hs =>
    ⟨hs.scopes.trans (hscopes _), hs.records, hs.fact⟩

theorem expr (env : Env) (expected : Ty) (e : Expr Unit) : Stays (expr env expected e) :=
  of_accepts fun _ => expr_accepts env expected e

theorem block (env : Env) (b : Block Unit) : Stays (block env b) :=
  of_accepts fun _ => block_accepts env b

theorem statement (env : Env) {stmt : Stmt Unit} (h : ∀ s, stmt.scopes env.enums s = s) : Stays (statement env stmt) :=
  of_accepts fun _ => (statement_accepts env stmt).mono fun _ _ hs => ⟨hs.scopes.trans (h _), hs.records, hs.fact⟩

/-- An arm is walked in a scope of its own. -/
theorem arm (env : Env) (expected type : Ty) (enumName : Option String) (sofar : Ty) (arm : Arm Unit) :
    Stays (inScope false do
      Walk.pattern env.enums type enumName arm.pattern
      armBody env expected sofar arm) :=
  of_accepts fun table => ((Accepts.pattern _ _ _ _).bind fun _ => armBody_accepts env expected sofar arm).inScope
    (arm.pattern.sameOutside_scopes table.push_inner_ne_nil type enumName)

end Stays

/-- Whether work begins like `x` and then walks the part that `x` gives, which becomes the child `k` of the result,
    where `x` declares nothing that lasts if the tree says so. -/
structure Leads (env : Env) (quiet : Prop) (k : Nat) (x : Walk Task) (y : Walk (Node Ty)) : Prop where
  done : ∀ {s : State} {n n' : Node Ty} {s' : State}, y.Gives s n s' → n.children[k]? = some n' →
    ∃ t s1 s2, x.Gives s t s1 ∧ (t.run env).Gives s1 n' s2 ∧ s2.log.Extends s'.log
  stays : quiet → Stays x

section Leads

variable {k : Nat} {t : Task} {quiet : Prop}

namespace Leads

variable {g : α → Walk (Node Ty)} {f : α → Walk Task}

theorem pass {z : Walk α} (hz : quiet → Stays z)
    (h : ∀ a, Leads env quiet k (f a) (g a)) : Leads env quiet k (z >>= f) (z >>= g) where
  done := by
    intro s n n' s' hy hchild
    obtain ⟨a, s1, hz, hy⟩ := gives_bind.1 hy
    obtain ⟨t, s2, s3, hx, hrun, hextends⟩ := (h a).done hy hchild
    exact ⟨t, s2, s3, gives_bind.2 ⟨a, s1, hz, hx⟩, hrun, hextends⟩
  stays hquiet := (hz hquiet).bind fun a => (h a).stays hquiet

theorem step {z : Walk α} (hz : Stays z)
    (h : ∀ a, Leads env quiet k (f a) (g a)) : Leads env quiet k (z >>= f) (z >>= g) :=
  pass (fun _ => hz) h

/-- Work that comes to its end has closed the scope it opened, deferred or not. -/
theorem inScope {deferred : Bool} {x : Walk Task} {y : Walk α}
    (h : Leads env quiet k x do
      Walk.push
      let a ← y
      pop
      g a) : Leads env quiet k x (inScope deferred y >>= g) where
  done := by
    intro s n n' s' hy hchild
    obtain ⟨a, _, hscope, hg⟩ := gives_bind.1 hy
    obtain ⟨s1, hinside, rfl⟩ := gives_inScope.1 hscope
    exact h.done (gives_bind.2 ⟨(), _, rfl, gives_bind.2 ⟨a, s1, hinside, gives_bind.2 ⟨(), _, rfl, hg⟩⟩⟩) hchild
  stays := h.stays

theorem part {w : Walk α} {node : α → Node Ty} {f : α → Walk (Node Ty)}
    (hrun : t.run env = w >>= fun a => pure (node a))
    (hf : ∀ a, Ends (fun n => n.children[k]? = some (node a)) (f a)) : Leads env quiet k (pure t) (w >>= f) where
  done := by
    intro s n n' s' hy hchild
    obtain ⟨a, s1, hw, hy⟩ := gives_bind.1 hy
    obtain ⟨hnode, hextends⟩ := (hf a).result hy
    obtain rfl : node a = n' := Option.some.inj (hnode.symm.trans hchild)
    exact ⟨t, s, s1, gives_pure.2 ⟨rfl, rfl⟩, hrun ▸ gives_bind.2 ⟨a, s1, hw, gives_pure.2 ⟨rfl, rfl⟩⟩, hextends⟩
  stays _ := .pure t

end Leads

namespace Task

variable {k : Nat} {x : Walk Task}

theorem leads_expr {e : Expr Unit} (hx : ((expr expected e).calls env)[k]? = some x) :
    Leads env quiet k x ((expr expected e).run env) := by
  rw [run]
  cases e with
  | literal | ident | variant => cases hx
  | binary _ _ lhs rhs =>
    rw [Walk.expr]
    simp only [bind_assoc]
    rcases k with _ | _ | k <;> cases hx
    · exact .part rfl fun _ => .bind (expr_steps env _ rhs).honest fun _ => .pure rfl
    · exact .step (.expr env _ lhs) fun _ => .part rfl fun _ => .pure rfl
  | assign _ target =>
    cases target with
    | ident =>
      rw [Walk.expr]
      simp only [bind_assoc]
      rcases k with _ | k <;> cases hx
      exact .step (.lookup _ _) fun _ => .step (.reportIf _ _) fun _ => .part rfl fun _ => .pure rfl
    | _ =>
      rw [Walk.expr]
      · simp only [bind_assoc]
        rcases k with _ | k <;> cases hx
        exact .step (.report _ _) fun _ => .part rfl fun _ => .pure rfl
      · rintro _ _ ⟨⟩
  | call _ callee =>
    cases callee with
    | ident =>
      rw [Walk.expr]
      rcases k with _ | k <;> cases hx
      simp only [bind_assoc]
      refine .step (.lookup _ _) fun symbol => ?_
      split
      · split
        · simp only [bind_assoc]
          exact .step (.report _ _) fun _ => .part rfl fun _ => .pure rfl
        · simp only [bind_assoc]
          exact .part rfl fun _ => .pure rfl
      · exact ⟨fun h => absurd (gives_bind.1 h) (by simp), fun _ => .giveUp rfl _⟩
    | _ =>
      rw [Walk.expr]
      · simp only [bind_assoc]
        rcases k with _ | k <;> cases hx
        exact .step (.report _ _) fun _ => .part rfl fun _ => .pure rfl
      · rintro _ _ ⟨⟩
  | paren span inner | select m =>
    rw [Walk.expr]
    simp only [bind_assoc]
    rcases k with _ | k <;> cases hx
    exact .part rfl fun _ => .pure rfl

theorem leads_arguments {params : List Ty} {args : List (Expr Unit)}
    (hx : ((arguments params args).calls env)[k]? = some x) :
    Leads env quiet k x ((arguments params args).run env) := by
  cases args with
  | nil => cases hx
  | cons arg args =>
    rw [run, Walk.arguments]
    simp only [bind_assoc]
    rcases k with _ | _ | k <;> cases hx
    · exact .part rfl fun _ => .bind (arguments_steps env _ args).honest fun _ => .pure rfl
    · exact .step (.expr env _ arg) fun _ => .part rfl fun _ => .pure rfl

theorem leads_selection {m : Match Unit} (hx : ((selection expected m).calls env)[k]? = some x) :
    Leads env quiet k x ((selection expected m).run env) := by
  obtain ⟨span, note, scrutinee, arms⟩ := m
  rw [run, Walk.selection]
  simp only [bind_assoc]
  rcases k with _ | _ | k <;> cases hx
  · refine .part rfl fun first => .bind Steps.scopes.honest fun table =>
      .bind (armList_steps env _ _ _ _ arms).honest fun joined => ?_
    split
    · simp only [bind_assoc]
      exact .bind (Steps.reportGap _ _).honest fun _ => .bind (Steps.recordMatch _ _).honest fun _ => .pure rfl
    · simp only [bind_assoc]
      exact .bind (Steps.recordMatch _ _).honest fun _ => .pure rfl
  · refine .step (.expr env _ scrutinee) fun first => .step .scopes fun table => .part rfl fun joined => ?_
    split
    · simp only [bind_assoc]
      exact .bind (Steps.reportGap _ _).honest fun _ => .bind (Steps.recordMatch _ _).honest fun _ => .pure rfl
    · simp only [bind_assoc]
      exact .bind (Steps.recordMatch _ _).honest fun _ => .pure rfl

/-- An arm may declare what its pattern binds. The arms after it are walked without that. -/
theorem leads_armList (hx : ((armList expected type enumName sofar arms).calls env)[k]? = some x) :
    Leads env ((armList expected type enumName sofar arms).node.declaration? place k = none) k x
      ((armList expected type enumName sofar arms).run env) := by
  cases arms with
  | nil => cases hx
  | cons arm arms =>
    rw [run, Walk.armList]
    simp only [bind_assoc]
    rcases k with _ | _ | k <;> cases hx
    · apply Leads.inScope
      simp only [bind_assoc]
      refine .step .push fun _ => .pass (fun hnone => .pattern fun span name hpattern => ?_) fun _ => .part rfl fun _ =>
        .bind .pop fun _ => .bind (armList_steps env _ _ _ _ arms).honest fun _ => .pure rfl
      rw [node, Node.declaration?, hpattern] at hnone
      cases hnone
    · exact .step (.arm env expected type enumName sofar arm) fun _ => .part rfl fun _ => .pure rfl

theorem leads_armBody {arm : Arm Unit} (hx : ((armBody expected sofar arm).calls env)[k]? = some x) :
    Leads env quiet k x ((armBody expected sofar arm).run env) := by
  cases arm with
  | block span pattern body | value span pattern value =>
    rw [run, Walk.armBody]
    simp only [bind_assoc]
    rcases k with _ | k <;> cases hx
    exact .part rfl fun _ => .pure rfl

theorem leads_block {b : Block Unit} (hx : ((block b).calls env)[k]? = some x) :
    Leads env quiet k x ((block b).run env) := by
  obtain ⟨span, stmts⟩ := b
  rw [run, Walk.block]
  simp only [bind_assoc]
  rcases k with _ | k <;> cases hx
  exact .inScope (.step .push fun _ => .part rfl fun _ => .bind .pop fun _ => .pure rfl)

theorem leads_stmtList (hx : ((stmtList stmts).calls env)[k]? = some x) :
    Leads env ((stmtList stmts).node.declaration? place k = none) k x ((stmtList stmts).run env) := by
  cases stmts with
  | nil => cases hx
  | cons stmt stmts =>
    rw [run, Walk.stmtList]
    simp only [bind_assoc]
    rcases k with _ | _ | k <;> cases hx
    · exact .part rfl fun _ => .bind (stmtList_steps env stmts).honest fun _ => .pure rfl
    · refine .pass (fun hnone => .statement env fun s => ?_) fun _ => .part rfl fun _ => .pure rfl
      cases stmt with
      | decl => cases hnone
      | _ => rfl

theorem leads_chain {c : IfChain Unit} (hx : ((chain c).calls env)[k]? = some x) :
    Leads env quiet k x ((chain c).run env) := by
  cases c with
  | only _ condition body =>
    rw [run, Walk.chain]
    simp only [bind_assoc]
    rcases k with _ | _ | k <;> cases hx
    · exact .part rfl fun _ => .bind (block_steps env body).honest fun _ => .pure rfl
    · exact .step (.expr env _ condition) fun _ => .part rfl fun _ => .pure rfl
  | orElse _ condition body other =>
    rw [run, Walk.chain]
    simp only [bind_assoc]
    rcases k with _ | _ | _ | k <;> cases hx
    · exact .part rfl fun _ => .bind (block_steps env body).honest fun _ =>
        .bind (block_steps env other).honest fun _ => .pure rfl
    · exact .step (.expr env _ condition) fun _ => .part rfl fun _ =>
        .bind (block_steps env other).honest fun _ => .pure rfl
    · exact .step (.expr env _ condition) fun _ => .step (.block env body) fun _ => .part rfl fun _ => .pure rfl
  | orIf _ condition body next =>
    rw [run, Walk.chain]
    simp only [bind_assoc]
    rcases k with _ | _ | _ | k <;> cases hx
    · exact .part rfl fun _ => .bind (block_steps env body).honest fun _ =>
        .bind (chain_steps env next).honest fun _ => .pure rfl
    · exact .step (.expr env _ condition) fun _ => .part rfl fun _ =>
        .bind (chain_steps env next).honest fun _ => .pure rfl
    · exact .step (.expr env _ condition) fun _ => .step (.block env body) fun _ => .part rfl fun _ => .pure rfl

theorem leads_statement {stmt : Stmt Unit} (hx : ((statement stmt).calls env)[k]? = some x) :
    Leads env quiet k x ((statement stmt).run env) := by
  cases stmt with
  | block body | cond c | select m | expr span value =>
    rw [run, Walk.statement]
    simp only [bind_assoc]
    rcases k with _ | k <;> cases hx
    exact .part rfl fun _ => .pure rfl
  | decl =>
    rw [run, Walk.statement]
    simp only [bind_assoc]
    rcases k with _ | k <;> cases hx
    refine .step (.resolveType _ _) fun resolved => ?_
    dsimp only
    split
    · simp only [bind_assoc]
      exact .step (.report _ _) fun _ => .part rfl fun _ => .bind (Steps.define _ _).honest fun _ =>
        .bind (.tell _) fun _ => .pure rfl
    · simp only [bind_assoc]
      exact .part rfl fun _ => .bind (Steps.define _ _).honest fun _ => .bind (.tell _) fun _ => .pure rfl
  | loop _ condition body =>
    rw [run, Walk.statement]
    simp only [bind_assoc]
    rcases k with _ | _ | k <;> cases hx
    · exact .part rfl fun _ => .bind (block_steps env body).honest fun _ => .pure rfl
    · exact .step (.expr env _ condition) fun _ => .part rfl fun _ => .pure rfl
  | ret _ value =>
    cases value with
    | none => cases hx
    | some =>
      rw [run, Walk.statement]
      rcases k with _ | k <;> cases hx
      split
      · simp only [bind_assoc]
        exact .step (.report _ _) fun _ => .part rfl fun _ => .pure rfl
      · simp only [bind_assoc]
        exact .part rfl fun _ => .pure rfl

theorem leads_initializer (hx : ((initializer type init).calls env)[k]? = some x) :
    Leads env quiet k x ((initializer type init).run env) := by
  cases init with
  | none => cases hx
  | some =>
    rw [run, Walk.initializer]
    simp only [bind_assoc]
    rcases k with _ | k <;> cases hx
    exact .part rfl fun _ => .pure rfl

/-- The pieces of what a walk gives back were walked on their own, and a part declares nothing for a piece but what the
    tree says. -/
theorem leads_of_call (place : TreePath) (hx : (t.calls env)[k]? = some x) :
    Leads env (t.node.declaration? place k = none) k x (t.run env) := by
  cases t with
  | expr => exact leads_expr hx
  | arguments => exact leads_arguments hx
  | selection => exact leads_selection hx
  | armList => exact leads_armList hx
  | armBody => exact leads_armBody hx
  | block => exact leads_block hx
  | stmtList => exact leads_stmtList hx
  | chain => exact leads_chain hx
  | statement => exact leads_statement hx
  | initializer => exact leads_initializer hx

end Task

end Leads

namespace Task

variable {k : Nat} {x : Walk Task}

theorem length_calls (t : Task) : (t.calls env).length = t.node.children.length := by
  unfold calls
  split <;> rfl

variable {s s' : State}

/-- A walk that finds nothing fatal gives a part back as it was. -/
theorem run_accepts (t : Task) (table : Scopes Symbol) :
    Accepts (State.At table [] True) (t.run env) fun n _ => (n.map fun _ => ()) = t.node := by
  cases t with
  | expr expected e => exact (expr_accepts env expected e).result fun _ h => congrArg Node.expr h.2.2
  | arguments params args => exact (arguments_accepts env params args).result fun _ h => congrArg Node.exprs h.2.2.2
  | selection expected m => exact (selection_accepts env expected m).result fun _ h => congrArg Node.select h.2.2
  | armList expected type enumName sofar arms =>
    exact (armList_accepts env expected type enumName sofar arms).result fun _ h => congrArg Node.arms h.2.2
  | armBody expected sofar arm =>
    exact (armBody_accepts env expected sofar arm).result fun _ h => congrArg Node.arm h.2.2.1
  | block b => exact (block_accepts env b).result fun _ h => congrArg Node.block h.2.2
  | stmtList stmts => exact (stmtList_accepts env stmts).result fun _ h => congrArg Node.stmts h.2.2
  | chain c => exact (chain_accepts env c).result fun _ h => congrArg Node.chain h.2.2
  | statement stmt => exact (statement_accepts env stmt).result fun _ h => congrArg Node.stmt h.2.2
  | initializer type init => exact (initializer_accepts env type init).result fun _ h => congrArg Node.init h.2.2

theorem erase_of_run {n : Node Ty} (h : (t.run env).Gives s n s') (hclean : s'.log.Clean) :
    (n.map fun _ => ()) = t.node :=
  (t.run_accepts _).of_gives h hclean

theorem run_honest (t : Task) : Honest (t.run env) :=
  (t.run_accepts .empty).steps.honest

/-- Every piece of a part that a walk gives back was walked, and nothing fatal was found in it. -/
theorem exists_call {n n' : Node Ty} (h : (t.run env).Gives s n s') (hclean : s'.log.Clean)
    (hchild : n.children[k]? = some n') : ∃ x t' s1 s2, (t.calls env)[k]? = some x ∧ x.Gives s t' s1 ∧
    (t'.run env).Gives s1 n' s2 ∧ s2.log.Clean := by
  have hlength : (t.calls env).length = n.children.length := by
    rw [length_calls, ← erase_of_run h hclean, Node.children_map, List.length_map]
  have hlt : k < (t.calls env).length := hlength ▸ (List.getElem?_eq_some_iff.1 hchild).1
  have hx := List.getElem?_eq_getElem hlt
  obtain ⟨t', s1, s2, hcall, hrun, hextends⟩ := (leads_of_call [] hx).done h hchild
  exact ⟨_, t', s1, s2, hx, hcall, hrun, hextends.clean hclean⟩

/-- The statements after a declaration are walked with the variable declared. -/
theorem scopes_of_decl {span nameSpan : Span} {modes : Modes} {name : String} {label : TypeLabel}
    (hx : ((stmtList (.decl span modes name nameSpan label init :: stmts)).calls env)[1]? = some x)
    (hcall : x.Gives s t s') (hclean : s'.log.Clean) :
    (∃ stmt, (Walk.statement env (.decl span modes name nameSpan label init)).Gives s stmt s') ∧
      s'.scopes = s.scopes.define (env.enums.variable modes name label) nameSpan := by
  cases hx
  obtain ⟨stmt, hstmt, -⟩ := gives_map.1 hcall
  exact ⟨⟨stmt, hstmt⟩, ((statement_accepts env _).of_gives hstmt hclean).scopes⟩

/-- An arm is walked with the name that it gives to what it matches. -/
theorem scopes_of_bind {arm : Arm Unit} {span : Span} {name : String} (hpattern : arm.pattern = .bind span name)
    (hx : ((armList expected type enumName sofar (arm :: arms)).calls env)[0]? = some x) (hcall : x.Gives s t s') :
      s'.scopes =
      s.scopes.push.define { name, type, enumName, kind := .value, storage := .register } span := by
  cases hx
  obtain ⟨_, s1, hpush, h⟩ := gives_bind.1 hcall
  obtain rfl := gives_push.1 hpush
  obtain ⟨_, hbind, -⟩ := gives_map.1 h
  rw [hpattern] at hbind
  exact (of_define hbind).1

end Task

theorem definitions_split {enums : EnumTable} {fs : List (FuncDef Unit)} {s : State} {i : Nat} {f' : FuncDef Ty}
    (hclean : (definitions enums (fs.map (·, true)) s).2.log.Clean) (hheads : ∀ f ∈ fs, f.HeadChecked enums)
    (hmodule : s.scopes.inner = []) (hf : (definitions enums (fs.map (·, true)) s).1[i]? = some f') :
    ∃ f s', fs[i]? = some f ∧ (definitions enums ((fs.map (·, true)).take i) s).2.scopes = s.scopes ∧
      (function enums f true).Gives (definitions enums ((fs.map (·, true)).take i) s).2 f' s' ∧ s'.log.Clean := by
  induction fs generalizing s i with
  | nil => cases hf
  | cons f fs ih =>
    rw [List.map_cons, definitions] at hclean hf
    dsimp only at hclean hf
    have hclean1 := (extends_definitions enums (fs.map (·, true)) (definition enums f true s).2).clean hclean
    obtain ⟨f1, hsome, hscopes, -⟩ := definition_accepted hclean1 (hheads f List.mem_cons_self) hmodule
    rw [hsome, Option.toList_some, List.singleton_append] at hf
    cases i with
    | zero =>
      cases hf
      refine ⟨f, ?_⟩
      rcases gives_or_stops (function enums f true) s with ⟨f2, s', h⟩ | ⟨reason, s', h⟩
      · rw [definition_of_gives h] at hsome hclean1
        cases hsome
        exact ⟨s', rfl, rfl, h, hclean1⟩
      · rw [definition_of_stops h] at hsome
        cases hsome
    | succ =>
      obtain ⟨g, s', hg, hscopes', h⟩ := ih hclean (fun g hg => hheads g (List.mem_cons_of_mem _ hg))
        (by rw [hscopes, hmodule]) hf
      exact ⟨g, s', hg, hscopes'.trans hscopes, h⟩

/-- The body of a function of a program without errors is walked with the parameters declared inside the module, and
    nothing fatal is found in it. -/
theorem exists_enter {p : Program Unit} {strict : Bool} (herrors : (p.analyze strict).hasErrors = false) {index : Nat}
    {f' : FuncDef Ty} (hf : (p.analyze strict).checked[index]? = some f') :
    ∃ f s s', p.funcs[index]? = some f ∧ (Header.ofProgram p).defs[index]? = some (f, true) ∧ f'.erase = f ∧
      (enter (p.analyze strict).enums f true).Gives (before p strict index)
        ⟨(p.analyze strict).enums, ((p.analyze strict).enums.labelType f.result).1⟩ s ∧
      s.scopes = Param.listScopes (p.analyze strict).enums
        (Analysis.moduleScopes (p.analyze strict).enums p.funcs).push f.params ∧
      (block ⟨(p.analyze strict).enums, ((p.analyze strict).enums.labelType f.result).1⟩ f.body).Gives s f'.body s' ∧
      s'.log.Clean := by
  have hclean := Program.clean_of_hasErrors herrors
  obtain ⟨-, hdefs, hscopes, -, hheads⟩ := Header.of_ofProgram_clean ((extends_definitions _ _ _).clean hclean)
  have hmodule : (Header.ofProgram p).scopes.inner = [] := by
    rw [hscopes]
    exact Header.declareAll_inner_eq_nil rfl
  have hchecked : (p.analyze strict).checked = (definitions (Header.ofProgram p).enums (p.funcs.map (·, true))
      ⟨strict, (Header.ofProgram p).scopes, (Header.ofProgram p).log⟩).1 := by
    rw [← hdefs]
    rfl
  rw [hdefs] at hclean
  rw [hchecked] at hf
  obtain ⟨f, s', hget, hbefore, hfunction, hclean'⟩ := definitions_split hclean (fun f hf => (hheads f hf).2) hmodule hf
  obtain ⟨-, -, herase, -⟩ := function_accepted hfunction hclean' (hheads f (List.mem_of_getElem? hget)).2
  rw [← hdefs] at hfunction hbefore
  rw [function, gives_bind] at hfunction
  obtain ⟨_, s1, htell, h⟩ := hfunction
  obtain ⟨_, s2, hpush, h⟩ := gives_bind.1 h
  obtain ⟨resolved, s3, hresolved, h⟩ := gives_bind.1 h
  obtain ⟨_, s4, hparams, h⟩ := gives_bind.1 h
  obtain ⟨body, s5, hbody, h⟩ := gives_bind.1 h
  obtain ⟨_, hleft, rfl⟩ := gives_map.1 h
  have hclean5 : s5.log.Clean := ((Honest.tell _).extends_of_gives hleft).clean hclean'
  have hclean4 := ((block_steps _ _).honest.extends_of_gives hbody).clean hclean5
  have henter : (enter (p.analyze strict).enums f true).Gives (before p strict index)
      ⟨(p.analyze strict).enums, resolved.1⟩ s4 :=
    gives_bind.2 ⟨_, _, htell, gives_bind.2 ⟨_, _, hpush, gives_bind.2 ⟨_, _, hresolved, gives_bind.2 ⟨_, _, hparams,
      gives_pure.2 ⟨rfl, rfl⟩⟩⟩⟩⟩
  obtain rfl := gives_tell.1 htell
  obtain rfl := gives_push.1 hpush
  obtain ⟨rfl, rfl⟩ := gives_headType.1 hresolved
  obtain ⟨hparameters, -⟩ := parameters_accepted hparams hclean4 (Scopes.push_inner_ne_nil _)
    (by simp [Scopes.declaredHere?, Scopes.push, Scope.Frame.get?])
  refine ⟨f, s4, s5, hget, ?_, herase, henter, ?_, hbody, hclean5⟩
  · rw [hdefs, List.getElem?_map, hget]
    rfl
  · rw [hparameters]
    rw [hbefore, hscopes]
    rfl

end LocLang.Walk
