import LocLang.Proofs.Analysis.Parallel
import LocLang.Proofs.Analysis.Program
import LocLang.Proofs.Tree.Bare

namespace LocLang

open Stmt

variable {symbol : Symbol} {move : Pos → Pos}

/-- Whether two symbols agree in what types depend on: not in place, depth, storage, modes and the wording of types. -/
structure Symbol.Alike (a b : Symbol) : Prop where
  name : b.name = a.name
  type : b.type = a.type
  enumName : b.enumName = a.enumName
  kind : b.kind = a.kind
  params : b.params = a.params

theorem Symbol.Alike.refl (a : Symbol) : a.Alike a :=
  ⟨rfl, rfl, rfl, rfl, rfl⟩

/-- Whether every name that refers to something in `s` refers to something alike in `s'`. -/
def Scopes.KnownIn (s s' : Scopes Symbol) : Prop :=
  ∀ ⦃name symbol⦄, s.Finds name symbol → ∃ symbol', s'.Finds name symbol' ∧ symbol.Alike symbol'

namespace Scopes.KnownIn

variable {s s' : Scopes Symbol}

theorem refl (s : Scopes Symbol) : s.KnownIn s :=
  fun _ symbol hfinds => ⟨symbol, hfinds, .refl symbol⟩

theorem push (h : s.KnownIn s') : s.push.KnownIn s'.push :=
  h

theorem declare (h : s.KnownIn s') (name : String) {symbol' : Symbol} (halike : symbol.Alike symbol') :
    (s.declare name symbol).KnownIn (s'.declare name symbol') := by
  intro other found hfinds
  rw [finds_declare] at hfinds
  by_cases hname : name = other
  · rw [if_pos hname] at hfinds
    refine ⟨symbol', ?_, hfinds ▸ halike⟩
    rw [finds_declare, if_pos hname]
  · rw [if_neg hname] at hfinds
    obtain ⟨known, hknown, halike⟩ := h hfinds
    refine ⟨known, ?_, halike⟩
    rwa [finds_declare, if_neg hname]

theorem define (h : s.KnownIn s') {symbol' : Symbol} (span span' : Span) (halike : symbol.Alike symbol') :
    (s.define symbol span).KnownIn (s'.define symbol' span') := by
  unfold Scopes.define
  rw [halike.name]
  exact h.declare _ ⟨rfl, halike.type, halike.enumName, halike.kind, halike.params⟩

theorem pattern (h : s.KnownIn s') (type : Ty) (enumName : Option String) (p : Pattern) :
    (p.scopes type enumName s).KnownIn ((p.moved move).scopes type enumName s') := by
  cases p with
  | bind span => exact h.define span _ (.refl _)
  | variant _ _ _ args => cases args <;> exact h
  | _ => exact h

/-- A declaration declares a variable with the same gist without its modes and places. -/
theorem stmt {μ : Type} (h : s.KnownIn s') (enums : EnumTable) (stmt : Stmt μ) :
    (stmt.scopes enums s).KnownIn ((stmt.moved move).plain.scopes enums s') := by
  cases stmt with
  | decl _ _ _ nameSpan label init =>
    have htype : enums.labelType (some (label.moved move)) = enums.labelType (some label) :=
        Walk.labelType_moved enums (some label)
    cases init <;> exact h.define nameSpan _ ⟨rfl, congrArg (·.1) htype, congrArg (·.2) htype, rfl, rfl⟩
  | ret _ value => cases value <;> exact h
  | _ => exact h

theorem params (h : s.KnownIn s') (enums : EnumTable) (ps : List Param) :
    (Param.listScopes enums s ps).KnownIn (Param.listScopes enums s' ((ps.map (·.moved move)).map (·.plain))) := by
  induction ps generalizing s s' with
  | nil => exact h
  | cons p _ ih =>
    have htype : enums.labelType (some (p.label.moved move)) = enums.labelType (some p.label) :=
      Walk.labelType_moved enums (some p.label)
    exact ih (h.define p.span _ ⟨rfl, congrArg (·.1) htype, congrArg (·.2) htype, rfl, rfl⟩)

/-- A function is declared by its name and its labels. -/
theorem declareAll (h : s.KnownIn s') (enums : EnumTable) (fs : List (FuncDef Unit)) :
    (Header.declareAll enums s fs).KnownIn (Header.declareAll enums s' (fs.map (·.bare))) := by
  induction fs generalizing s s' with
  | nil => exact h
  | cons f _ ih =>
    have hsymbol : Header.symbol enums f.bare = (Header.symbol enums f).moved fun _ => .origin := by
      rw [← Header.symbol_moved]
      simp [Header.symbol, FuncDef.bare, FuncDef.plain, Param.plain]
    exact ih (h.declare f.name (hsymbol ▸ ⟨rfl, rfl, rfl, rfl, rfl⟩))

end Scopes.KnownIn

namespace Expr

variable {μ : Type} {s s' : Scopes Symbol} {span : Span}

/-- Only variables are assigned to. -/
theorem Checked.of_assign {env : Walk.Env} {expected type : Ty} {target rhs : Expr Ty}
    (h : (assign span target rhs).Checked env s expected type) :
    ∃ targetSpan name symbol rhsType, target = .ident targetSpan name ∧ s.Finds name symbol ∧ symbol.assignable ∧
      rhs.Checked env s symbol.type rhsType ∧ type = symbol.type := by
  cases target with
  | ident targetSpan name =>
    obtain ⟨symbol, rhsType, h⟩ := h
    exact ⟨targetSpan, name, symbol, rhsType, rfl, h⟩
  | _ => simp only [Expr.Checked] at h

/-- Only functions are called. -/
theorem Checked.of_call {env : Walk.Env} {expected type : Ty} {callee : Expr Ty} {args : List (Expr Ty)}
    (h : (call span callee args).Checked env s expected type) :
    ∃ calleeSpan name symbol, callee = .ident calleeSpan name ∧ s.Finds name symbol ∧ symbol.kind = .function ∧
      args.length = symbol.params.length ∧ CheckedList env s symbol.params args ∧ type = symbol.type := by
  cases callee with
  | ident calleeSpan name =>
    obtain ⟨symbol, h⟩ := h
    exact ⟨calleeSpan, name, symbol, rfl, h⟩
  | _ => simp only [Expr.Checked] at h

theorem enumName?_ident {name : String} (h : s.Finds name symbol) :
    (ident span name : Expr μ).enumName? s = if symbol.kind = .value then symbol.enumName else none := by
  obtain ⟨entry, hentry, rfl⟩ := h
  simp only [enumName?, hentry]

theorem enumName?_call {calleeSpan : Span} {name : String} {args : List (Expr μ)} (h : s.Finds name symbol) :
    (call span (ident calleeSpan name) args).enumName? s =
      if symbol.kind = .function then symbol.enumName else none := by
  obtain ⟨entry, hentry, rfl⟩ := h
  simp only [enumName?, hentry]

theorem enumName?_assign (span : Span) (target rhs : Expr μ) :
    (assign span target rhs).enumName? s = target.enumName? s := by
  rw [enumName?]

/-- The enum of a checked expression's value is the same wherever its names refer to something alike. -/
theorem Checked.enumName?_bare {env : Walk.Env} (hs : s.KnownIn s') {expected type : Ty} :
    ∀ e : Expr Ty, e.Checked env s expected type → (e.moved move).plain.enumName? s' = e.enumName? s
  | .ident _ _, ⟨_, hfinds, _⟩ => by
    obtain ⟨known, hknown, halike⟩ := hs hfinds
    rw [moved, plain, enumName?_ident hfinds, enumName?_ident hknown, halike.kind, halike.enumName]
  | .call _ _ _, h => by
    obtain ⟨_, _, symbol, rfl, hfinds, -⟩ := h.of_call
    obtain ⟨known, hknown, halike⟩ := hs hfinds
    rw [moved, moved, plain, plain, enumName?_call hfinds, enumName?_call hknown, halike.kind, halike.enumName]
  | .assign _ _ _, h => by
    obtain ⟨_, _, symbol, _, rfl, hfinds, -⟩ := h.of_assign
    obtain ⟨known, hknown, halike⟩ := hs hfinds
    rw [moved, moved, plain, plain, enumName?_assign, enumName?_assign, enumName?_ident hfinds, enumName?_ident hknown,
      halike.kind, halike.enumName]
  | .paren _ inner, h => Checked.enumName?_bare hs inner h
  | .literal _ _, _ | .variant _ _ _, _ | .binary _ _ _ _, _ | .select _, _ => by simp only [moved, plain, enumName?]

end Expr


section Noted

variable (env : Walk.Env)

def Scopes.symbol? (s : Scopes Symbol) (name : String) : Option Symbol :=
  (s.resolve? name).map (·.value)

mutual

/-- An expression with its notes, and its type. -/
def Expr.noted (s : Scopes Symbol) (expected : Ty) : Expr Unit → Ty × Expr Ty
  | .literal span value => (value.typeFor expected, .literal span value)
  | .ident span name => ((s.symbol? name).elim .unknown (·.type), .ident span name)
  | .variant span enumName variant => (.int32, .variant span enumName variant)
  | .binary span op lhs rhs =>
    let l := Expr.noted s .unknown lhs
    let r := Expr.noted s .unknown rhs
    (if op.isComparison then .bool else l.1.wider r.1, .binary span op l.2 r.2)
  | .assign span target rhs =>
    let l := Expr.noted s .unknown target
    (l.1, .assign span l.2 (Expr.noted s l.1 rhs).2)
  | .call span callee args =>
    let l := Expr.noted s .unknown callee
    let params := match callee with
      | .ident _ name => (s.symbol? name).elim [] (·.params)
      | _ => []
    (l.1, .call span l.2 (Expr.listNoted s params args))
  | .paren span inner =>
    let r := Expr.noted s expected inner
    (r.1, .paren span r.2)
  | .select m =>
    let r := Match.noted s expected m
    (r.1, .select r.2)

def Expr.listNoted (s : Scopes Symbol) (params : List Ty) : List (Expr Unit) → List (Expr Ty)
  | [] => []
  | e :: es => (Expr.noted s (params.head?.getD .unknown) e).2 :: Expr.listNoted s params.tail es

def Match.noted (s : Scopes Symbol) (expected : Ty) : Match Unit → Ty × Match Ty
  | .mk span _ scrutinee arms =>
    let r := Expr.noted s .unknown scrutinee
    let rs := Arm.listNoted s expected r.1 (r.2.enumName? s) .unknown arms
    let type := if expected = .unknown then rs.1 else expected
    (type, .mk span type r.2 rs.2)

def Arm.listNoted (s : Scopes Symbol) (expected type : Ty) (enumName : Option String) (sofar : Ty) :
    List (Arm Unit) → Ty × List (Arm Ty)
  | [] => (sofar, [])
  | arm :: arms =>
    let r := Arm.noted (arm.pattern.scopes type enumName s.push) expected sofar arm
    let rs := Arm.listNoted s expected type enumName r.1 arms
    (rs.1, r.2 :: rs.2)

def Arm.noted (s : Scopes Symbol) (expected sofar : Ty) : Arm Unit → Ty × Arm Ty
  | .block span pattern body => (sofar, .block span pattern (Block.noted s body))
  | .value span pattern value =>
    let r := Expr.noted s (if expected = .void then .unknown else expected) value
    (Walk.joinArm sofar r.1, .value span pattern r.2)

def Block.noted (s : Scopes Symbol) : Block Unit → Block Ty
  | .mk span stmts => .mk span (Stmt.listNoted s.push stmts)

def Stmt.listNoted (s : Scopes Symbol) : List (Stmt Unit) → List (Stmt Ty)
  | [] => []
  | stmt :: stmts =>
    let r := Stmt.noted s stmt
    r :: Stmt.listNoted (r.scopes env.enums s) stmts

def IfChain.noted (s : Scopes Symbol) : IfChain Unit → IfChain Ty
  | .only span condition body => .only span (Expr.noted s .bool condition).2 (Block.noted s body)
  | .orElse span condition body other =>
    .orElse span (Expr.noted s .bool condition).2 (Block.noted s body) (Block.noted s other)
  | .orIf span condition body next =>
    .orIf span (Expr.noted s .bool condition).2 (Block.noted s body) (IfChain.noted s next)

def Stmt.noted (s : Scopes Symbol) : Stmt Unit → Stmt Ty
  | .block body => .block (Block.noted s body)
  | .decl span modes name nameSpan label none => .decl span modes name nameSpan label none
  | .decl span modes name nameSpan label (some init) =>
    .decl span modes name nameSpan label (some (Expr.noted s (env.enums.labelType (some label)).1 init).2)
  | .cond chain => .cond (IfChain.noted s chain)
  | .loop span condition body => .loop span (Expr.noted s .bool condition).2 (Block.noted s body)
  | .select m => .select (Match.noted s .void m).2
  | .ret span none => .ret span none
  | .ret span (some value) => .ret span (some (Expr.noted s env.result value).2)
  | .expr span value => .expr span (Expr.noted s .unknown value).2

end

end Noted

theorem Scopes.Finds.symbol?_eq {s : Scopes Symbol} {name : String} (h : s.Finds name symbol) :
    s.symbol? name = some symbol := by
  obtain ⟨entry, hentry, rfl⟩ := h
  rw [symbol?, hentry, Option.map_some]

theorem Arm.pattern_bare {μ ν : Type} (f : μ → ν) (a : Arm μ) :
    ((a.map f).moved move).plain.pattern = a.pattern.moved move := by
  cases a <;> rfl

section Determined

variable {env : Walk.Env}

attribute [local simp] Expr.map Expr.moved Expr.plain Expr.noted Match.map Match.moved Match.plain Match.noted Arm.map
  Arm.moved Arm.plain Arm.noted Block.map Block.moved Block.plain Block.noted IfChain.map IfChain.moved IfChain.plain
  IfChain.noted Stmt.map Stmt.moved Stmt.plain Stmt.noted Expr.mapList Expr.movedList Expr.plainList Expr.listNoted
  Arm.mapList Arm.movedList Arm.plainList Arm.listNoted Stmt.mapList Stmt.movedList Stmt.plainList Stmt.listNoted

mutual

theorem Expr.Checked.noted_bare {s s' : Scopes Symbol} {expected type : Ty} (hs : s.KnownIn s') :
    ∀ e : Expr Ty, e.Checked env s expected type →
    ((e.map fun _ => ()).moved move).plain.noted env s' expected = (type, (e.moved move).plain)
  | .literal _ _, h | .variant _ _ _, h => by simp [h.2]
  | .ident _ _, ⟨_, hfinds, _, htype⟩ => by
    obtain ⟨known, hknown, halike⟩ := hs hfinds
    simp [hknown.symbol?_eq, Option.elim_some, halike.type, htype]
  | .binary _ _ lhs rhs, ⟨_, _, hlhs, hrhs, htype⟩ => by
    simp [hlhs.noted_bare hs lhs, hrhs.noted_bare hs rhs, htype]
  | .assign _ _ rhs, h => by
    obtain ⟨_, _, symbol, _, rfl, hfinds, -, hrhs, htype⟩ := h.of_assign
    obtain ⟨known, hknown, halike⟩ := hs hfinds
    simp [hknown.symbol?_eq, Option.elim_some, halike.type, hrhs.noted_bare hs rhs, htype]
  | .call _ _ args, h => by
    obtain ⟨_, _, symbol, rfl, hfinds, -, -, hargs, htype⟩ := h.of_call
    obtain ⟨known, hknown, halike⟩ := hs hfinds
    simp [hknown.symbol?_eq, Option.elim_some, halike.type, halike.params,
      hargs.noted_bare hs args, htype]
  | .paren _ inner, h => by simp [h.noted_bare hs inner]
  | .select m, h => by simp [Match.Checked.noted_bare hs m h]

theorem Expr.CheckedList.noted_bare {s s' : Scopes Symbol} {params : List Ty} (hs : s.KnownIn s') :
    ∀ es : List (Expr Ty), Expr.CheckedList env s params es →
      Expr.listNoted env s' params (Expr.plainList (Expr.movedList move (Expr.mapList (fun _ => ()) es))) =
        Expr.plainList (Expr.movedList move es)
  | [], _ => by simp
  | e :: es, ⟨⟨_, he⟩, hes⟩ => by
    simp [he.noted_bare hs e, hes.noted_bare hs es]

theorem Match.Checked.noted_bare {s s' : Scopes Symbol} {expected type : Ty} (hs : s.KnownIn s') :
    ∀ m : Match Ty, m.Checked env s expected type →
    ((m.map fun _ => ()).moved move).plain.noted env s' expected = (type, (m.moved move).plain)
  | .mk _ _ scrutinee arms, ⟨_, _, hscrutinee, harms, htype, hnote⟩ => by
    simp [hscrutinee.noted_bare hs scrutinee,
      hscrutinee.enumName?_bare hs scrutinee, harms.noted_bare hs arms, ← htype, hnote]

theorem Arm.CheckedList.noted_bare {s s' : Scopes Symbol} {expected type : Ty} {enumName : Option String}
    {sofar joined : Ty} (hs : s.KnownIn s') :
    ∀ arms : List (Arm Ty), Arm.CheckedList env s expected type enumName sofar joined arms →
      Arm.listNoted env s' expected type enumName sofar
        (Arm.plainList (Arm.movedList move (Arm.mapList (fun _ => ()) arms))) =
        (joined, Arm.plainList (Arm.movedList move arms))
  | [], h => by
    rw [Arm.CheckedList] at h
    simp [h]
  | arm :: arms, ⟨_, _, harm, harms⟩ => by
    simp [Arm.pattern_bare,
      harm.noted_bare (hs.push.pattern type enumName arm.pattern) arm, harms.noted_bare hs arms]

theorem Arm.Checked.noted_bare {s s' : Scopes Symbol} {expected sofar joined : Ty} (hs : s.KnownIn s') :
    ∀ arm : Arm Ty, arm.Checked env s expected sofar joined →
      ((arm.map fun _ => ()).moved move).plain.noted env s' expected sofar = (joined, (arm.moved move).plain)
  | .block _ _ body, ⟨hbody, hjoined⟩ => by
    simp [hbody.noted_bare hs body, hjoined]
  | .value _ _ value, ⟨_, hvalue, hjoined⟩ => by
    simp [hvalue.noted_bare hs value, hjoined]

theorem Block.Checked.noted_bare {s s' : Scopes Symbol} (hs : s.KnownIn s') :
    ∀ b : Block Ty, b.Checked env s → ((b.map fun _ => ()).moved move).plain.noted env s' = (b.moved move).plain
  | .mk _ stmts, h => by simp [Stmt.CheckedList.noted_bare hs.push stmts h]

theorem Stmt.CheckedList.noted_bare {s s' : Scopes Symbol} (hs : s.KnownIn s') :
    ∀ stmts : List (Stmt Ty), Stmt.CheckedList env s stmts →
      Stmt.listNoted env s' (plainList (movedList move (mapList (fun _ => ()) stmts))) =
        plainList (movedList move stmts)
  | [], _ => by simp
  | stmt :: stmts, ⟨hstmt, hstmts⟩ => by
    simp [hstmt.noted_bare hs stmt,
      hstmts.noted_bare (hs.stmt env.enums stmt) stmts]

theorem IfChain.Checked.noted_bare {s s' : Scopes Symbol} (hs : s.KnownIn s') :
    ∀ c : IfChain Ty, c.Checked env s → ((c.map fun _ => ()).moved move).plain.noted env s' = (c.moved move).plain
  | .only _ condition body, ⟨⟨_, hcondition⟩, hbody⟩ => by
    simp [hcondition.noted_bare hs condition, hbody.noted_bare hs body]
  | .orElse _ condition body other, ⟨⟨_, hcondition⟩, hbody, hother⟩ => by
    simp [hcondition.noted_bare hs condition, hbody.noted_bare hs body,
      hother.noted_bare hs other]
  | .orIf _ condition body next, ⟨⟨_, hcondition⟩, hbody, hnext⟩ => by
    simp [hcondition.noted_bare hs condition, hbody.noted_bare hs body,
      hnext.noted_bare hs next]

theorem Stmt.Checked.noted_bare {s s' : Scopes Symbol} (hs : s.KnownIn s') :
    ∀ stmt : Stmt Ty, stmt.Checked env s → ((stmt.map fun _ => ()).moved move).plain.noted env s' =
    (stmt.moved move).plain
  | .block body, h => by simp [Block.Checked.noted_bare hs body h]
  | .decl _ _ _ _ _ none, _ | .ret _ none, _ => by simp
  | .decl _ _ _ _ label (some init), ⟨_, _, _, hinit⟩ => by
    have htype : env.enums.labelType (some (label.moved move)) = env.enums.labelType (some label) :=
      Walk.labelType_moved env.enums (some label)
    simp [htype, hinit.noted_bare hs init]
  | .cond chain, h => by simp [IfChain.Checked.noted_bare hs chain h]
  | .loop _ condition body, ⟨⟨_, hcondition⟩, hbody⟩ => by
    simp [hcondition.noted_bare hs condition, hbody.noted_bare hs body]
  | .select m, ⟨_, h⟩ => by simp [h.noted_bare hs m]
  | .ret _ (some value), ⟨_, _, hvalue⟩ | .expr _ value, ⟨_, hvalue⟩ => by
    simp [hvalue.noted_bare hs value]

end

end Determined

namespace FuncDef

variable {enums : EnumTable} {s s' t : Scopes Symbol}

theorem Checked.noted_bare (hs : s.KnownIn t) {f : FuncDef Ty} (h : f.Checked enums s) :
    f.erase.bare.body.noted ⟨enums, (enums.labelType f.result).1⟩
    (Param.listScopes enums t.push f.bare.params) = f.bare.body :=
  Block.Checked.noted_bare (hs.push.params enums f.params) f.body h.body

/-- A bare checked function is determined by the function without notes, and by what is known of the functions that it
    calls. -/
theorem Checked.determined (hs : s.KnownIn t) (hs' : s'.KnownIn t) {f f' : FuncDef Ty} (h : f.Checked enums s)
    (h' : f'.Checked enums s') (herase : f.erase.bare = f'.erase.bare) : f.bare = f'.bare := by
  have hparams : f.bare.params = f'.bare.params := congrArg (fun g : FuncDef Unit => g.params) herase
  have hresult : f.bare.result = f'.bare.result := congrArg (fun g : FuncDef Unit => g.result) herase
  have htype (g : FuncDef Ty) : enums.labelType g.bare.result = enums.labelType g.result :=
      Walk.labelType_moved enums g.result
  have hbody : f.bare.body = f'.bare.body := by
    rw [← h.noted_bare hs, ← h'.noted_bare hs', herase, hparams, ← htype, hresult, htype]
  calc
    f.bare = { f.erase.bare with body := f.bare.body } := rfl
    _ = { f'.erase.bare with body := f'.bare.body } := by rw [herase, hbody]
    _ = f'.bare := rfl

theorem determined_of_checked (hs : s.KnownIn t) (hs' : s'.KnownIn t) {fs fs' : List (FuncDef Ty)}
    (h : ∀ f ∈ fs, f.Checked enums s) (h' : ∀ f ∈ fs', f.Checked enums s')
    (herase : (fs.map (·.erase)).map (·.bare) = (fs'.map (·.erase)).map (·.bare)) : fs.map (·.bare) =
    fs'.map (·.bare) := by
  induction fs generalizing fs' with
  | nil =>
    cases fs' with
    | nil => rfl
    | cons => cases herase
  | cons f _ ih =>
    cases fs' with
    | nil => cases herase
    | cons f' =>
      simp only [List.map_cons, List.cons.injEq] at herase ⊢
      exact ⟨(h f List.mem_cons_self).determined hs hs' (h' f' List.mem_cons_self) herase.1,
        ih (fun g hg => h g (List.mem_cons_of_mem _ hg)) (fun g hg => h' g (List.mem_cons_of_mem _ hg)) herase.2⟩

end FuncDef

/-- Programs that are the same when they are bare have the same checked functions when these are bare. -/
theorem Analysis.Accepts.bare_eq {a b : Analysis} {p q : Program Unit} (ha : a.Accepts p) (hb : b.Accepts q)
    (henums : a.enums = b.enums) (hbare : p.bare = q.bare) : a.checked.map (·.bare) = b.checked.map (·.bare) := by
  have hfuncs : p.funcs.map (·.bare) = q.funcs.map (·.bare) := by
    rw [← Program.funcs_bare, hbare, Program.funcs_bare]
  have hp : (moduleScopes a.enums p.funcs).KnownIn (moduleScopes a.enums (q.funcs.map (·.bare))) :=
    hfuncs ▸ (Scopes.KnownIn.refl _).declareAll a.enums p.funcs
  have hq : (moduleScopes a.enums q.funcs).KnownIn (moduleScopes a.enums (q.funcs.map (·.bare))) :=
    (Scopes.KnownIn.refl _).declareAll a.enums q.funcs
  apply FuncDef.determined_of_checked hp hq ha.checked (henums ▸ hb.checked)
  rw [ha.erase_eq, hb.erase_eq, hfuncs]

end LocLang
