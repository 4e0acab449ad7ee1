import LocLang.Proofs.Lowering.Jumps
import LocLang.Proofs.Tree.Places

namespace LocLang.Lower

variable {α β : Type} {env : Env} {d d' d1 : Draft} {enums : EnumTable} {fs : List (FuncDef Ty)}
  {init : Option (Expr Ty)} {gs : List IrFunction} {stmts : List (Stmt Ty)} {name : String}

/-- A part of a function, with what its lowering is told about it. -/
inductive Task where
  | expr (e : Expr Ty)
  /-- The arguments of a call of the function that prints. -/
  | printed (args : List (Expr Ty))
  | arguments (name : String) (types : List MachineTy) (args : List (Expr Ty))
  | selection (type : Ty) (m : Match Ty)
  | armList (n : Nat) (v : Operand) (slot : Option Slot) (k : Nat) (arms : List (Arm Ty))
  | armBody (slot : Option Slot) (arm : Arm Ty)
  | block (b : Block Ty)
  | stmtList (stmts : List (Stmt Ty))
  | chain (c : IfChain Ty)
  | statement (stmt : Stmt Ty)
  | initializer (type : MachineTy) (init : Option (Expr Ty))

namespace Task

def node : Task → Node Ty
  | expr e => .expr e
  | printed args | arguments _ _ args => .exprs args
  | selection _ m => .select m
  | armList _ _ _ _ arms => .arms arms
  | armBody _ arm => .arm arm
  | block b => .block b
  | stmtList stmts => .stmts stmts
  | chain c => .chain c
  | statement stmt => .stmt stmt
  | initializer _ init => .init init

def run (env : Env) : Task → Lower Unit
  | expr e => do
    let _ ← Lower.expr env e
  | printed [] => fault .nothingToPrint
  | printed (arg :: _) => do
    let _ ← Lower.expr env arg
  | arguments name types args => do
    let _ ← Lower.arguments env name types args
  | selection type m => do
    let _ ← Lower.selection env type m
  | armList n v slot k arms => Lower.armList env n v slot k arms
  | armBody slot arm => Lower.armBody env slot arm
  | block b => Lower.block env b
  | stmtList stmts => Lower.stmtList env stmts
  | chain c => Lower.chain env c
  | statement stmt => Lower.statement env stmt
  | initializer type init => do
    let _ ← Lower.initializer env type init

/-- The pieces of a condition with two branches; see `calls`. -/
def forked (env : Env) (condition : Expr Ty) (body : Block Ty) (other : Task) : List (Lower Task) :=
  [ do
      let _ ← nextLabel
      return expr condition,
    do
      let n ← nextLabel
      let cond ← Lower.expr env condition
      let cond ← convert cond .i1
      terminate (.condBr cond (.ifThen n) (.ifElse n))
      place (.ifThen n)
      return block body,
    do
      let n ← nextLabel
      let cond ← Lower.expr env condition
      let cond ← convert cond .i1
      terminate (.condBr cond (.ifThen n) (.ifElse n))
      place (.ifThen n)
      Lower.block env body
      terminateIfOpen (.br (.ifEnd n))
      place (.ifElse n)
      return other ]

/-- What is done about the pieces of a part: for each of them the steps that come before its lowering, and what its
    lowering is told. Steps that fail never come to the piece. -/
def calls (env : Env) : Task → List (Lower Task)
  | expr (.binary _ _ lhs rhs) =>
    [ pure (expr lhs),
      do
        let _ ← Lower.expr env lhs
        return expr rhs ]
  | expr (.assign _ place rhs) =>
    [ do
        let _ ← target place
        return expr rhs ]
  | expr (.call _ (.ident _ name) args) =>
    if name = printName then [pure (printed args)]
    else
      [ do
          let s ← callee name
          return arguments name s.params args ]
  | expr (.paren _ inner) => [pure (expr inner)]
  | expr (.select m) => [pure (selection m.note m)]
  | expr _ => []
  | printed [] => []
  | printed (arg :: _) => [pure (expr arg)]
  | arguments name (type :: types) (arg :: args) =>
    [ pure (expr arg),
      do
        let v ← Lower.expr env arg
        let _ ← convert v type
        return arguments name types args ]
  | arguments _ _ _ => []
  | selection type (.mk _ _ scrutinee arms) =>
    [ do
        let _ ← nextLabel
        return expr scrutinee,
      do
        let n ← nextLabel
        let v ← Lower.expr env scrutinee
        let slot ← resultSlot n type
        terminate (.br (nextTest n 0 arms))
        return armList n v slot 0 arms ]
  | armList n v slot k (arm :: arms) =>
    [ do
        pushScope
        place (.matchTest n k)
        let cond ← patternTest env.enums v arm.pattern
        terminate (.condBr cond (.matchArm n k) (nextTest n (k + 1) arms))
        place (.matchArm n k)
        return armBody slot arm,
      do
        pushScope
        place (.matchTest n k)
        let cond ← patternTest env.enums v arm.pattern
        terminate (.condBr cond (.matchArm n k) (nextTest n (k + 1) arms))
        place (.matchArm n k)
        Lower.armBody env slot arm
        terminateIfOpen (.br (.matchEnd n))
        popScope
        return armList n v slot (k + 1) arms ]
  | armList _ _ _ _ [] => []
  | armBody _ (.block _ _ body) => [pure (block body)]
  | armBody _ (.value _ _ value) => [pure (expr value)]
  | block (.mk _ stmts) =>
    [ do
        pushScope
        return stmtList stmts ]
  | stmtList [] => []
  | stmtList (stmt :: stmts) =>
    [ pure (statement stmt),
      do
        Lower.statement env stmt
        if ← isOpen then
          return stmtList stmts
        else
          fault .noOpenBlock ]
  | chain (.only _ condition body) =>
    [ do
        let _ ← nextLabel
        return expr condition,
      do
        let n ← nextLabel
        let cond ← Lower.expr env condition
        let cond ← convert cond .i1
        terminate (.condBr cond (.ifThen n) (.ifEnd n))
        place (.ifThen n)
        return block body ]
  | chain (.orElse _ condition body other) => forked env condition body (block other)
  | chain (.orIf _ condition body next) => forked env condition body (chain next)
  | statement (.block body) => [pure (block body)]
  | statement (.decl _ _ _ _ label init) => [pure (initializer (Ty.ofName label.name).machine init)]
  | statement (.cond c) => [pure (chain c)]
  | statement (.loop _ condition body) =>
    [ do
        let n ← nextLabel
        terminate (.br (.whileCond n))
        place (.whileCond n)
        return expr condition,
      do
        let n ← nextLabel
        terminate (.br (.whileCond n))
        place (.whileCond n)
        let cond ← Lower.expr env condition
        let cond ← convert cond .i1
        terminate (.condBr cond (.whileBody n) (.whileEnd n))
        place (.whileBody n)
        return block body ]
  | statement (.select m) => [pure (selection .void m)]
  | statement (.ret _ none) => []
  | statement (.ret _ (some value)) => [pure (expr value)]
  | statement (.expr _ value) => [pure (expr value)]
  | initializer _ none => []
  | initializer _ (some value) => [pure (expr value)]

end Task

/-- Starts the lowering of the function `f`, the one of the given number, and gives what its body is lowered against. -/
def enter (a : Analysis) (index : Nat) (f : FuncDef Ty) : Lower Env := do
  signatures a a.checked
  let _ ← functions a.enums (a.checked.take index)
  let s ← callee f.name
  begin
  pushScope
  parameters ((f.params.map (·.name)).zip (f.irParams s))
  return ⟨a.enums, s.result⟩

/-- The parts of a function that are lowered, with their places and the drafts that their lowering starts from. The
    function is the one of the given number. -/
inductive Visits (a : Analysis) (index : Nat) (env : Env) : TreePath → Task → Draft → Prop where
  | body {f : FuncDef Ty} {d : Draft} (hf : a.checked[index]? = some f)
      (henter : (enter a index f).Gives { scopes := .empty } env d) : Visits a index env [] (.block f.body) d
  | call {place : TreePath} {t t' : Task} {d d' : Draft} {k : Nat} {x : Lower Task}
      (hvisit : Visits a index env place t d) (hx : (t.calls env)[k]? = some x) (hcall : x.Gives d t' d') :
      Visits a index env (k :: place) t' d'

/-- The part at a place and the draft that its lowering starts from, if the place is come to. -/
def visit? (a : Analysis) (index : Nat) : TreePath → Option (Env × Task × Draft)
  | [] => do
    let f ← a.checked[index]?
    let (env, d) ← ((enter a index f).run { scopes := .empty }).toOption
    return (env, .block f.body, d)
  | k :: place => do
    let (env, t, d) ← visit? a index place
    let x ← (t.calls env)[k]?
    let (t', d') ← (x.run d).toOption
    return (env, t', d')

theorem toOption_run_eq_some {x : Lower α} {a : α} : (x.run d).toOption = some (a, d') ↔ x.Gives d a d' := by
  rw [Gives]
  cases x.run d <;> simp [Except.toOption]

variable {slot : Option Slot} {arms : List (Arm Ty)} {t : Task} {v : Operand} {f : Unit → Lower α} {arm : Arm Ty}
  {i n : Nat}

theorem visit?_eq_some {a : Analysis} {index : Nat} {place : TreePath} :
    visit? a index place = some (env, t, d) ↔ Visits a index env place t d := by
  constructor
  · intro h
    induction place generalizing t d with
    | nil =>
      simp only [visit?, Option.bind_eq_bind, Option.bind_eq_some_iff, Prod.exists, toOption_run_eq_some] at h
      obtain ⟨f, hf, env', d', henter, heq⟩ := h
      cases heq
      exact .body hf henter
    | cons _ _ ih =>
      simp only [visit?, Option.bind_eq_bind, Option.bind_eq_some_iff, Prod.exists, toOption_run_eq_some] at h
      obtain ⟨env', t0, d0, hparent, x, hx, t', d', hcall, heq⟩ := h
      cases heq
      exact .call (ih hparent) hx hcall
  · intro h
    induction h with
    | body hf henter => simp [visit?, hf, toOption_run_eq_some.2 henter]
    | call _ hx hcall ih => simp [visit?, ih, hx, toOption_run_eq_some.2 hcall]

/-- Whether every result of some work has a property. -/
structure Returns (P : α → Prop) (x : Lower α) : Prop where
  result : ∀ {d : Draft} {a : α} {d' : Draft}, x.Gives d a d' → P a

namespace Returns

variable {P : α → Prop}

protected theorem pure {a : α} (h : P a) : Returns P (pure a) :=
  ⟨fun hpure => (gives_pure.1 hpure).1 ▸ h⟩

theorem fault {f : Fault} : Returns P (fault f) :=
  ⟨fun h => absurd h gives_fault⟩

theorem bind {x : Lower β} {f : β → Lower α} (h : ∀ b, Returns P (f b)) : Returns P (x >>= f) := by
  constructor
  intro d a d' hbind
  obtain ⟨b, d1, -, hrest⟩ := gives_bind.1 hbind
  exact (h b).result hrest

end Returns

/-- The pieces that are lowered are the pieces that there are. -/
theorem Task.children_of_call {t' : Task} {k : Nat} {x : Lower Task} (hx : (t.calls env)[k]? = some x)
    (hcall : x.Gives d t' d') : t.node.children[k]? = some t'.node := by
  suffices h : Returns (fun t' => t.node.children[k]? = some t'.node) x from h.result hcall
  unfold calls at hx
  all_goals
    repeat' split at hx
    all_goals rcases k with _ | _ | _ | k <;> cases hx
    all_goals
      repeat first
        | exact .pure rfl
        | exact .fault
        | refine .bind fun _ => ?_
        | split

theorem Task.eq_of_arm_call {x : Lower Task} (hx : ((armList n v slot i (arm :: arms)).calls env)[0]? = some x)
    (hcall : x.Gives d t d') : t = armBody slot arm := by
  suffices h : Returns (· = armBody slot arm) x from h.result hcall
  cases hx
  repeat refine .bind fun _ => ?_
  exact .pure rfl

/-- The other arms are lowered like the first one. -/
theorem Task.eq_of_arms_call {x : Lower Task} (hx : ((armList n v slot i (arm :: arms)).calls env)[1]? = some x)
    (hcall : x.Gives d t d') : t = armList n v slot (i + 1) arms := by
  suffices h : Returns (· = armList n v slot (i + 1) arms) x from h.result hcall
  cases hx
  repeat refine .bind fun _ => ?_
  exact .pure rfl

theorem Grows.leave (target : Label) (hf : ∀ u, Grows (f u)) : Grows (Lower.terminateIfOpen (.br target) >>= f) :=
  (terminateIfOpen _).bind hf

theorem Grows.branch (v : Operand) (ifTrue ifFalse : Label) (hf : ∀ u, Grows (f u)) : Grows (do
      let cond ← Lower.convert v .i1
      Lower.terminate (.condBr cond ifTrue ifFalse)
      Lower.place ifTrue
      f ()) :=
  (convert _ _).bind fun _ => (terminate _).bind fun _ => (place _).bind fun _ => hf ()

/-- Whether work declares nothing that lasts. -/
structure Stays (x : Lower α) : Prop where
  entries_eq : ∀ {d : Draft} {a : α} {d' : Draft}, x.Gives d a d' → d'.scopes.entries = d.scopes.entries

namespace Stays

theorem of_steady {x : Lower α} (h : Steady x) : Stays x :=
  ⟨fun hx => congrArg Scopes.entries (h.scopes_eq hx)⟩

theorem bind {x : Lower α} {f : α → Lower β} (hx : Stays x) (hf : ∀ a, Stays (f a)) : Stays (x >>= f) := by
  constructor
  intro d b d' h
  obtain ⟨a, d1, hfirst, hrest⟩ := gives_bind.1 h
  rw [(hf a).entries_eq hrest, hx.entries_eq hfirst]

theorem pushScope : Stays pushScope :=
  ⟨fun h => by rw [gives_pushScope.1 h, Scopes.entries_push]⟩

theorem isOpen : Stays isOpen :=
  ⟨fun h => by rw [(gives_isOpen.1 h).2]⟩

theorem patternTest {p : Pattern} (h : ∀ span name, p ≠ .bind span name) : Stays (patternTest enums v p) :=
  .of_steady (Built.patternTest enums v fun span name hbind => absurd hbind (h span name)).steady

/-- An arm is lowered in a scope of its own. -/
theorem inScope : Stays (do
    Lower.pushScope
    place (.matchTest n i)
    let cond ← Lower.patternTest env.enums v arm.pattern
    terminate (.condBr cond (.matchArm n i) (nextTest n (i + 1) arms))
    place (.matchArm n i)
    armBody env slot arm
    terminateIfOpen (.br (.matchEnd n))
    popScope
    return Task.armList n v slot (i + 1) arms) := by
  have harm : Local (do
      place (.matchTest n i)
      let cond ← Lower.patternTest env.enums v arm.pattern
      terminate (.condBr cond (.matchArm n i) (nextTest n (i + 1) arms))
      place (.matchArm n i)
      armBody env slot arm
      terminateIfOpen (.br (.matchEnd n))) :=
    (Steady.place _).isLocal.bind fun _ => (Local.patternTest _ _ _).bind fun _ => (Steady.terminate _).isLocal.bind
      fun _ => (Steady.place _).isLocal.bind fun _ => (armBody_steady env slot arm).isLocal.bind fun _ =>
        (Steady.terminateIfOpen _).isLocal
  have h := Steady.inScope harm (.pure (Task.armList n v slot (i + 1) arms))
  simp only [bind_assoc] at h
  exact .of_steady h

end Stays

/-- Whether the lowering of a part from `d` is done in work that ends with `d'`. -/
def Task.DoneIn (env : Env) (t : Task) (d d' : Draft) : Prop :=
  ∃ d1, (t.run env).Gives d () d1 ∧ d1.Grows d'

/-- Whether work begins like `x` and then lowers the part that `x` gives, where `x` declares nothing that lasts if the
    tree says so. -/
structure Leads (env : Env) (quiet : Prop) (x : Lower Task) (y : Lower α) : Prop where
  done : ∀ {d : Draft} {t : Task} {d1 : Draft} {a : α} {d' : Draft}, x.Gives d t d1 → y.Gives d a d' →
    t.DoneIn env d1 d'
  stays : quiet → Stays x

section Leads

variable {t : Task} {quiet : Prop} {condition : Expr Ty}

namespace Leads

variable {y : Lower α}

theorem pass {γ : Type} {z : Lower γ} {f : γ → Lower Task} {g : γ → Lower α} (hz : quiet → Stays z)
    (h : ∀ c, Leads env quiet (f c) (g c)) : Leads env quiet (z >>= f) (z >>= g) where
  done := by
    intro d t d1 a d' hx hy
    obtain ⟨c, d2, hgives, hx⟩ := gives_bind.1 hx
    obtain ⟨c', d2', hgives', hy⟩ := gives_bind.1 hy
    obtain ⟨rfl, rfl⟩ := hgives.unique hgives'
    exact (h c).done hx hy
  stays hquiet := (hz hquiet).bind fun c => (h c).stays hquiet

theorem step {γ : Type} {z : Lower γ} {f : γ → Lower Task} {g : γ → Lower α} (hz : Steady z)
    (h : ∀ c, Leads env quiet (f c) (g c)) : Leads env quiet (z >>= f) (z >>= g) :=
  pass (fun _ => .of_steady hz) h

theorem of_stays {x : Lower Task} (hx : Stays x) (h : Leads env False x y) : Leads env quiet x y :=
  ⟨h.done, fun _ => hx⟩

theorem fault {f : Fault} : Leads env quiet (fault f) y :=
  ⟨fun h => absurd h gives_fault, fun _ => ⟨fun h => absurd h gives_fault⟩⟩

theorem value {y : Lower β} {f : β → Lower α} (hrun : t.run env = y >>= fun _ => pure ())
    (hf : ∀ b, Grows (f b)) : Leads env quiet (pure t) (y >>= f) where
  done := by
    intro d t' d1 a d' hx hy
    obtain ⟨rfl, rfl⟩ := gives_pure.1 hx
    obtain ⟨b, d2, hy, hrest⟩ := gives_bind.1 hy
    exact ⟨d2, hrun ▸ hy.bind (gives_pure.2 ⟨rfl, rfl⟩), (hf b).draft hrest⟩
  stays _ := .of_steady (.pure t)

theorem part (hf : ∀ u, Grows (f u)) : Leads env quiet (pure t) (t.run env >>= f) :=
  value (bind_pure_unit (x := t.run env)).symm hf

theorem whole : Leads env quiet (pure t) (t.run env) := by
  have h : Leads env quiet (pure t) (t.run env >>= fun _ => pure ()) := part fun _ => .pure ()
  rwa [bind_pure_unit] at h

/-- A condition is lowered, and then the code that runs when it holds. -/
theorem branch {ifTrue ifFalse : Label} {x : Lower Task} (h : Leads env quiet x y) :
    Leads env quiet
      (do
        let cond ← Lower.expr env condition
        let cond ← convert cond .i1
        terminate (.condBr cond ifTrue ifFalse)
        place ifTrue
        x)
      (do
        let cond ← Lower.expr env condition
        let cond ← convert cond .i1
        terminate (.condBr cond ifTrue ifFalse)
        place ifTrue
        y) :=
  .step (expr_steady env condition) fun _ => .step (.convert _ _) fun _ => .step (.terminate _) fun _ =>
    .step (.place _) fun _ => h

end Leads

namespace Task

variable {k : Nat} {x : Lower Task} {args : List (Expr Ty)}

theorem leads_expr {e : Expr Ty} (hx : ((expr e).calls env)[k]? = some x) : Leads env quiet x ((expr e).run env) := by
  rw [run]
  cases e with
  | literal | ident | variant => cases hx
  | binary _ _ lhs rhs =>
    rw [Lower.expr]
    simp only [bind_assoc]
    rcases k with _ | _ | k <;> cases hx
    · exact .value rfl fun _ => ((expr_grows env rhs).bind fun _ => (Grows.binary _ _ _).bind
        fun _ => .pure _)
    · exact .step (expr_steady env lhs) fun _ => .value rfl fun _ => ((Grows.binary _ _ _).bind fun _ => .pure _)
  | assign _ place =>
    have htarget : Steady (target place) := by
      simpa only [bind_pure] using (Built.target place fun slot _ => .pure slot).steady
    rw [Lower.expr]
    simp only [bind_assoc]
    rcases k with _ | k <;> cases hx
    exact .step htarget fun _ => .value rfl fun _ => ((Grows.convert _ _).bind fun _ => (Grows.emit _).bind
      fun _ => .pure _)
  | call _ callee args =>
    cases callee with
    | ident _ name =>
      rw [expr_call_ident]
      rw [calls] at hx
      split
      · rename_i hname
        rw [if_pos hname] at hx
        rcases k with _ | k <;> cases hx
        cases args with
        | nil => exact ⟨fun _ h => absurd (gives_bind.1 h) (by simp), fun _ => .of_steady (.pure _)⟩
        | cons =>
          simp only [bind_assoc]
          exact .value rfl fun _ => ((Grows.print _).bind fun _ => .pure _)
      · rename_i hname
        rw [if_neg hname] at hx
        rcases k with _ | k <;> cases hx
        simp only [bind_assoc]
        exact .step (Built.callee name).steady fun _ => .value rfl fun _ => ((Grows.call _ _).bind fun _ => .pure _)
    | _ => cases hx
  | paren span inner | select m =>
    rcases k with _ | k <;> cases hx
    exact .value rfl fun _ => .pure _

theorem leads_printed (hx : ((printed args).calls env)[k]? = some x) :
    Leads env quiet x ((printed args).run env) := by
  cases args with
  | nil => cases hx
  | cons =>
    rcases k with _ | k <;> cases hx
    exact .value rfl fun _ => .pure _

theorem leads_arguments {types : List MachineTy} (hx : ((arguments name types args).calls env)[k]? = some x) :
    Leads env quiet x ((arguments name types args).run env) := by
  cases types with
  | nil => cases hx
  | cons =>
    cases args with
    | nil => cases hx
    | cons arg args =>
      rw [run, Lower.arguments]
      simp only [bind_assoc]
      rcases k with _ | _ | k <;> cases hx
      · exact .value rfl fun _ => ((Grows.convert _ _).bind fun _ => (arguments_grows env args _ _).bind
          fun _ => .pure _)
      · exact .step (expr_steady env arg) fun _ => .step (.convert _ _) fun _ => .value rfl fun _ => .pure _

theorem leads_selection {type : Ty} {m : Match Ty} (hx : ((selection type m).calls env)[k]? = some x) :
    Leads env quiet x ((selection type m).run env) := by
  obtain ⟨span, note, scrutinee, arms⟩ := m
  rw [run, Lower.selection]
  simp only [bind_assoc]
  have hend (n : Nat) (slot : Option Slot) : Grows (do
      place (.matchFail n)
      terminate .unreachable
      place (.matchEnd n)
      let _ ← loadResult slot) :=
    (Grows.place _).bind fun _ => (Grows.terminate _).bind fun _ => (Grows.place _).bind fun _ =>
      ((Grows.loadResult _).bind fun _ => .pure _)
  rcases k with _ | _ | k <;> cases hx
  · exact .step .nextLabel fun n => .value rfl fun v => (Built.resultSlot n type).grows.bind fun slot =>
      (Grows.terminate _).bind fun _ => (armList_grows env n v slot 0 arms).bind fun _ => hend n slot
  · exact .step .nextLabel fun n => .step (expr_steady env scrutinee) fun v =>
      .step (Built.resultSlot _ _).steady fun slot =>
      .step (.terminate _) fun _ => .part fun _ => hend n slot

/-- An arm may declare what its pattern binds. The arms after it are lowered without that. -/
theorem leads_armList {place : TreePath} (hx : ((armList n v slot i arms).calls env)[k]? = some x) :
    Leads env ((armList n v slot i arms).node.declaration? place k = none) x ((armList n v slot i arms).run env) := by
  cases arms with
  | nil => cases hx
  | cons arm arms =>
    rcases k with _ | _ | k <;> cases hx
    · refine .pass (fun _ => .pushScope) fun _ => .step (.place _) fun _ =>
        .pass (fun hnone => .patternTest ?_) fun _ =>
        .step (.terminate _) fun _ => .step (.place _) fun _ => .part fun _ => .leave _ fun _ =>
          (Grows.popScope).bind fun _ => armList_grows env n v slot _ arms
      intro span name hpattern
      rw [node, Node.declaration?, hpattern] at hnone
      cases hnone
    · exact .of_stays .inScope (.pass False.elim fun _ => .step (.place _) fun _ => .pass False.elim fun _ =>
        .step (.terminate _) fun _ => .step (.place _) fun _ => .step (armBody_steady env slot arm) fun _ =>
          .step (.terminateIfOpen _) fun _ => .pass False.elim fun _ => .whole)

theorem leads_armBody (hx : ((armBody slot arm).calls env)[k]? = some x) :
    Leads env quiet x ((armBody slot arm).run env) := by
  cases arm with
  | block =>
    rcases k with _ | k <;> cases hx
    exact .whole
  | value _ _ value =>
    rcases k with _ | k <;> cases hx
    exact .value rfl fun _ => .storeResult _ _

theorem leads_block {b : Block Ty} (hx : ((block b).calls env)[k]? = some x) :
    Leads env quiet x ((block b).run env) := by
  obtain ⟨span, stmts⟩ := b
  rcases k with _ | k <;> cases hx
  exact .pass (fun _ => .pushScope) fun _ => .part fun _ => .popScope

theorem leads_stmtList {place : TreePath} (hx : ((stmtList stmts).calls env)[k]? = some x) :
    Leads env ((stmtList stmts).node.declaration? place k = none) x ((stmtList stmts).run env) := by
  cases stmts with
  | nil => cases hx
  | cons _ stmts =>
    rcases k with _ | _ | k <;> cases hx
    · refine .part fun _ => (Built.isOpen.grows.bind fun b => ?_)
      cases b
      · exact .pure _
      · exact stmtList_grows env stmts
    · refine .pass (fun hnone => .of_steady (statement_steady env ?_)) fun _ => .pass (fun _ => .isOpen) fun b => ?_
      · rintro span modes name nameSpan label init rfl
        cases hnone
      · cases b
        · exact .fault
        · exact .whole

theorem leads_forked {body : Block Ty} {other : Task} (hother : Grows (other.run env))
    (hx : (forked env condition body other)[k]? = some x) :
    Leads env quiet x (do
      let n ← nextLabel
      let cond ← Lower.expr env condition
      let cond ← convert cond .i1
      terminate (.condBr cond (.ifThen n) (.ifElse n))
      place (.ifThen n)
      Lower.block env body
      terminateIfOpen (.br (.ifEnd n))
      place (.ifElse n)
      other.run env
      terminateIfOpen (.br (.ifEnd n))
      place (.ifEnd n)) := by
  have hrest (n : Nat) : Grows (do
      terminateIfOpen (.br (.ifEnd n))
      place (.ifElse n)
      other.run env
      terminateIfOpen (.br (.ifEnd n))
      place (.ifEnd n)) :=
    .leave _ fun _ => (Grows.place _).bind fun _ => hother.bind fun _ => .leave _ fun _ => .place _
  rcases k with _ | _ | _ | k <;> cases hx
  · exact .step .nextLabel fun n => .value rfl fun _ => .branch _ _ _ fun _ =>
      (block_grows env body).bind fun _ => hrest n
  · exact .step .nextLabel fun n => .branch (.part fun _ => hrest n)
  · exact .step .nextLabel fun n => .branch (.step (block_steady env body) fun _ => .step (.terminateIfOpen _) fun _ =>
      .step (.place _) fun _ => .part fun _ => .leave _ fun _ => .place _)

theorem leads_chain {c : IfChain Ty} (hx : ((chain c).calls env)[k]? = some x) :
    Leads env quiet x ((chain c).run env) := by
  cases c with
  | only _ _ body =>
    rcases k with _ | _ | k <;> cases hx
    · exact .step .nextLabel fun n => .value rfl fun _ => .branch _ _ _ fun _ =>
        (block_grows env body).bind fun _ => .leave _ fun _ => .place _
    · exact .step .nextLabel fun n => .branch (.part fun _ => .leave _ fun _ => .place _)
  | orElse _ _ _ other =>
    have hother : Grows ((block other).run env) := block_grows env other
    have h : Leads env quiet x _ := leads_forked hother hx
    rwa [run, Lower.chain]
  | orIf _ _ _ next =>
    have hnext : Grows ((chain next).run env) := chain_grows env next
    have h : Leads env quiet x _ := leads_forked hnext hx
    rwa [run, Lower.chain]

theorem leads_statement {stmt : Stmt Ty} (hx : ((statement stmt).calls env)[k]? = some x) :
    Leads env quiet x ((statement stmt).run env) := by
  cases stmt with
  | block body | cond c =>
    rcases k with _ | k <;> cases hx
    exact .whole
  | decl =>
    rcases k with _ | k <;> cases hx
    exact .value rfl fun _ => .declareVariable _ _ _
  | loop _ _ body =>
    rcases k with _ | _ | k <;> cases hx
    · exact .step .nextLabel fun n => .step (.terminate _) fun _ => .step (.place _) fun _ => .value rfl fun _ =>
        .branch _ _ _ fun _ => (block_grows env body).bind fun _ => .leave _ fun _ => .place _
    · exact .step .nextLabel fun n => .step (.terminate _) fun _ => .step (.place _) fun _ =>
        .branch (.part fun _ => .leave _ fun _ => .place _)
  | select m | expr span value =>
    rcases k with _ | k <;> cases hx
    exact .value rfl fun _ => .pure _
  | ret _ value =>
    cases value with
    | none => cases hx
    | some value =>
      rcases k with _ | k <;> cases hx
      exact .value rfl fun _ => ((Grows.convert _ _).bind fun _ => .terminate _)

theorem leads_initializer {type : MachineTy}
    (hx : ((initializer type init).calls env)[k]? = some x) : Leads env quiet x ((initializer type init).run env) := by
  cases init with
  | none => cases hx
  | some value =>
    rw [run, Lower.initializer]
    simp only [bind_assoc]
    rcases k with _ | k <;> cases hx
    exact .value rfl fun _ => ((Grows.convert _ _).bind fun _ => .pure _)

/-- A part whose lowering succeeds has the pieces lowered that are come to, and declares nothing for a piece but what
    the tree says. -/
theorem leads_of_call (place : TreePath) (hx : (t.calls env)[k]? = some x) :
    Leads env (t.node.declaration? place k = none) x (t.run env) := by
  cases t with
  | expr => exact leads_expr hx
  | printed => exact leads_printed hx
  | arguments => exact leads_arguments hx
  | selection => exact leads_selection hx
  | armList => exact leads_armList hx
  | armBody => exact leads_armBody hx
  | block => exact leads_block hx
  | stmtList => exact leads_stmtList hx
  | chain => exact leads_chain hx
  | statement => exact leads_statement hx
  | initializer => exact leads_initializer hx

end Task

end Leads

namespace Task

variable {k : Nat} {x : Lower Task}

/-- The statements after a declaration are lowered with the slot of the variable declared. -/
theorem scopes_of_decl {span nameSpan : Span} {modes : Modes} {label : TypeLabel}
    (hx : ((stmtList (.decl span modes name nameSpan label init :: stmts)).calls env)[1]? = some x)
    (hcall : x.Gives d t d') : (Lower.statement env (.decl span modes name nameSpan label init)).Gives d () d' ∧
      ∃ i, d'.scopes = d.scopes.declare name (.slot ⟨.named name i, (Ty.ofName label.name).machine⟩) := by
  cases hx
  obtain ⟨_, d1, hstmt, h⟩ := gives_bind.1 hcall
  obtain ⟨b, d2, hopen, h⟩ := gives_bind.1 h
  obtain ⟨rfl, rfl⟩ := gives_isOpen.1 hopen
  obtain rfl : d' = d2 := by
    split at h
    · exact (gives_pure.1 h).2
    · exact absurd h gives_fault
  refine ⟨hstmt, ?_⟩
  obtain ⟨v, d3, hinit, hdeclare⟩ := gives_bind.1 hstmt
  obtain ⟨slot, d4, hslot, hdeclare⟩ := gives_bind.1 hdeclare
  obtain ⟨_, d5, hstore, hdeclare⟩ := gives_bind.1 hdeclare
  obtain rfl := gives_declare.1 hdeclare
  obtain ⟨rfl, -⟩ := gives_newSlot.1 hslot
  refine ⟨d3.slots.length, ?_⟩
  rw [(Steady.emit _).scopes_eq hstore, (Steady.newSlot _ _).scopes_eq hslot,
    (initializer_steady env _ init).scopes_eq hinit]

/-- An arm is lowered with the name that it gives to what it matches. -/
theorem scopes_of_bind {span : Span} (hpattern : arm.pattern = .bind span name)
    (hx : ((armList n v slot i (arm :: arms)).calls env)[0]? = some x) (hcall : x.Gives d t d') :
    d'.scopes = d.scopes.push.declare name (.value v) := by
  cases hx
  obtain ⟨_, d1, hpush, h⟩ := gives_bind.1 hcall
  obtain rfl := gives_pushScope.1 hpush
  obtain ⟨_, d2, htest, h⟩ := gives_bind.1 h
  obtain ⟨cond, d3, hbind, h⟩ := gives_bind.1 h
  obtain ⟨_, d4, hbranch, h⟩ := gives_bind.1 h
  obtain ⟨_, harm, -⟩ := gives_map.1 h
  rw [hpattern] at hbind
  obtain ⟨_, hdeclare, -⟩ := gives_map.1 hbind
  obtain rfl := gives_declare.1 hdeclare
  rw [(Steady.place _).scopes_eq harm, (Steady.terminate _).scopes_eq hbranch]
  rw [(Steady.place _).scopes_eq htest]

end Task

theorem functions_split {f : FuncDef Ty}
    (h : (functions enums fs).Gives d gs d') (hf : fs[i]? = some f) :
    ∃ gs1 d1 g d2, (functions enums (fs.take i)).Gives d gs1 d1 ∧ (function enums f).Gives d1 g d2 ∧
      gs[i]? = some g := by
  induction fs generalizing d gs i with
  | nil => cases hf
  | cons _ _ ih =>
    obtain ⟨g, d1, hfunction, h⟩ := gives_bind.1 h
    obtain ⟨gs', hrest, rfl⟩ := gives_map.1 h
    cases i with
    | zero =>
      cases hf
      exact ⟨[], d, g, d1, gives_pure.2 ⟨rfl, rfl⟩, hfunction, rfl⟩
    | succ =>
      obtain ⟨gs1, d3, g', d4, hbefore, hthis, hget⟩ := ih hrest hf
      refine ⟨g :: gs1, d3, g', d4, ?_, hthis, hget⟩
      exact hfunction.bind (hbefore.bind (gives_pure.2 ⟨rfl, rfl⟩))

theorem functions_scopes
    (h : (functions enums fs).Gives d gs d') (hinner : d.scopes.inner = []) : d'.scopes = d.scopes := by
  induction fs generalizing d gs with
  | nil =>
    obtain ⟨-, rfl⟩ := gives_pure.1 h
    rfl
  | cons _ _ ih =>
    obtain ⟨g, d1, hfunction, h⟩ := gives_bind.1 h
    obtain ⟨gs', hrest, -⟩ := gives_map.1 h
    have hscopes := function_scopes hfunction hinner
    exact (ih hrest (hscopes ▸ hinner)).trans hscopes

section Program

variable {a : Analysis} {p : Program Unit} {index : Nat} {f : FuncDef Ty} {place : TreePath} {t : Task}

theorem of_enter (h : (enter a index f).Gives { scopes := .empty } env d) :
    ∃ d1 gs d2 s, (signatures a a.checked).Gives { scopes := .empty } () d1 ∧
      (functions a.enums (a.checked.take index)).Gives d1 gs d2 ∧ d2.scopes.Finds f.name (.function s) ∧
      d = start d2 ((f.params.map (·.name)).zip (f.irParams s)) ∧ env = ⟨a.enums, s.result⟩ := by
  simp only [enter, gives_bind, gives_callee, gives_begin, gives_pushScope, gives_parameters, gives_pure] at h
  obtain ⟨_, d1, hsignatures, gs, d2, hfunctions, s, _, ⟨hfinds, rfl⟩, _, _, rfl, _, _, rfl, _, _, rfl, rfl, rfl⟩ := h
  exact ⟨d1, gs, _, s, hsignatures, hfunctions, hfinds, rfl, rfl⟩

/-- The scopes that the body of a function is lowered in: the parameters inside the module. -/
theorem scopes_of_enter (ha : a.Accepts p) (hf : a.checked[index]? = some f)
    (h : (enter a index f).Gives { scopes := .empty } env d) :
    d.scopes = declareParameters (declareAll a.enums .empty a.checked).push
        (f.params.map fun q => (q.name, q.lowered a.enums)) ∧
      env = ⟨a.enums, (a.enums.labelType f.result).1.machine⟩ := by
  obtain ⟨d1, gs, d2, s, hsignatures, hfunctions, hfinds, rfl, rfl⟩ := of_enter h
  obtain ⟨-, rfl⟩ := hsignatures.unique (signatures_gives ha a.checked fun _ hf => hf)
  have hscopes := functions_scopes hfunctions (declareAll_inner_eq_nil rfl)
  rw [hscopes] at hfinds
  obtain rfl : s = f.signature a.enums := by
    have heq := hfinds.unique (finds_declareAll (nodup_checked_names ha) (List.mem_of_getElem? hf))
    cases heq
    rfl
  rw [FuncDef.irParams_signature, List.zip_map', start, hscopes, FuncDef.signature_eq]
  exact ⟨rfl, rfl⟩

/-- In a program that has code, whatever is come to is lowered, and its blocks are in the code. -/
theorem Visits.doneIn {target : Target} {m : IrModule} (hlower : a.lower target = .ok m)
    (h : Visits a index env place t d) : ∃ g last, m.functions[index]? = some g ∧ g.blocks = last.finished ∧
    last.current = none ∧ t.DoneIn env d last := by
  induction h with
  | body hf henter =>
    obtain ⟨d1, gs, d2, s, hsignatures, hfunctions, hfinds, rfl, rfl⟩ := of_enter henter
    obtain ⟨d', hprogram⟩ := gives_program_of_lower hlower
    obtain ⟨_, d1', hsignatures', hfunctions'⟩ := gives_bind.1 hprogram
    obtain ⟨-, rfl⟩ := hsignatures.unique hsignatures'
    obtain ⟨gs1, d2', g, d3, hbefore, hfunction, hg⟩ := functions_split hfunctions' hf
    obtain ⟨-, rfl⟩ := hfunctions.unique hbefore
    obtain ⟨s', d4, last, hfinds', hblock, hclose, rfl, -⟩ := gives_function.1 hfunction
    cases hfinds.unique hfinds'
    exact ⟨_, last, hg, rfl, current_of_terminateIfOpen hclose, d4, hblock, (Grows.terminateIfOpen _).draft hclose⟩
  | call _ hx hcall ih =>
    obtain ⟨g, last, hg, hblocks, hlast, d1, hrun, honward⟩ := ih
    obtain ⟨d2, hrun', honward'⟩ := (Task.leads_of_call [] hx).done hcall hrun
    exact ⟨g, last, hg, hblocks, hlast, d2, hrun', honward'.trans honward⟩

end Program

end LocLang.Lower
