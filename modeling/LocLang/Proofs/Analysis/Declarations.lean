import LocLang.Proofs.Analysis.Program
import LocLang.Proofs.Parser.Steps

namespace LocLang

open List

/-- What is known of a declared name without types. -/
structure Symbol.Untyped where
  name : String
  span : Option Span
  depth : Nat
  kind : SymbolKind
  storage : Storage
  assignable : Bool
deriving DecidableEq, Repr

namespace Symbol.Untyped

def function (name : String) (span : Span) : Untyped :=
  ⟨name, span, 0, .function, .register, false⟩

/-- A name for a value: a parameter, or what a pattern binds. -/
def register (depth : Nat) (name : String) (span : Span) : Untyped :=
  ⟨name, span, depth, .value, .register, false⟩

/-- A variable, the only thing that can be assigned to. -/
def slot (depth : Nat) (name : String) (span : Span) : Untyped :=
  ⟨name, span, depth, .value, .slot, true⟩

end Symbol.Untyped

def Symbol.untyped (s : Symbol) : Untyped :=
  ⟨s.name, s.span, s.depth, s.kind, s.storage, s.assignable⟩

section Tree

variable {μ : Type}

def Pattern.declarations : Pattern → Nat → List Symbol.Untyped
  | .bind span name, depth => [.register depth name span]
  | _, _ => []

mutual

/-- What stands at the given depth in an expression. -/
def Expr.declarations : Expr μ → Nat → List Symbol.Untyped
  | .literal _ _, _ => []
  | .ident _ _, _ => []
  | .variant _ _ _, _ => []
  | .binary _ _ lhs rhs, depth => lhs.declarations depth ++ rhs.declarations depth
  | .assign _ target rhs, depth => target.declarations depth ++ rhs.declarations depth
  | .call _ callee args, depth => callee.declarations depth ++ Expr.listDeclarations args depth
  | .paren _ inner, depth => inner.declarations depth
  | .select m, depth => m.declarations depth

def Expr.listDeclarations : List (Expr μ) → Nat → List Symbol.Untyped
  | [], _ => []
  | e :: es, depth => e.declarations depth ++ Expr.listDeclarations es depth

def Match.declarations : Match μ → Nat → List Symbol.Untyped
  | .mk _ _ scrutinee arms, depth => scrutinee.declarations depth ++ Arm.listDeclarations arms depth

def Arm.declarations : Arm μ → Nat → List Symbol.Untyped
  | .block _ _ body, depth => body.declarations depth
  | .value _ _ value, depth => value.declarations depth

/-- Every arm is a scope of its own, which starts with its pattern. -/
def Arm.listDeclarations : List (Arm μ) → Nat → List Symbol.Untyped
  | [], _ => []
  | a :: as, depth => a.pattern.declarations (depth + 1) ++ a.declarations (depth + 1) ++ Arm.listDeclarations as depth

/-- A block is a scope of its own. -/
def Block.declarations : Block μ → Nat → List Symbol.Untyped
  | .mk _ stmts, depth => Stmt.listDeclarations stmts (depth + 1)

def IfChain.declarations : IfChain μ → Nat → List Symbol.Untyped
  | .only _ condition body, depth => condition.declarations depth ++ body.declarations depth
  | .orElse _ condition body other, depth =>
    condition.declarations depth ++ (body.declarations depth ++ other.declarations depth)
  | .orIf _ condition body next, depth =>
    condition.declarations depth ++ (body.declarations depth ++ next.declarations depth)

/-- A variable is declared after its initial value. -/
def Stmt.declarations : Stmt μ → Nat → List Symbol.Untyped
  | .block body, depth => body.declarations depth
  | .decl _ _ name span _ none, depth => [.slot depth name span]
  | .decl _ _ name span _ (some init), depth => init.declarations depth ++ [.slot depth name span]
  | .cond chain, depth => chain.declarations depth
  | .loop _ condition body, depth => condition.declarations depth ++ body.declarations depth
  | .select m, depth => m.declarations depth
  | .ret _ none, _ => []
  | .ret _ (some value), depth => value.declarations depth
  | .expr _ value, depth => value.declarations depth

def Stmt.listDeclarations : List (Stmt μ) → Nat → List Symbol.Untyped
  | [], _ => []
  | s :: ss, depth => s.declarations depth ++ Stmt.listDeclarations ss depth

end

/-- The parameters of a function are in a scope around its body. -/
def FuncDef.declarations (f : FuncDef μ) : List Symbol.Untyped :=
  f.params.map (fun p => .register 1 p.name p.span) ++ f.body.declarations 1

/-- The functions of a program, then what each of them declares. -/
def Program.declarations (p : Program μ) : List Symbol.Untyped :=
  p.funcs.map (fun f => .function f.name f.nameSpan) ++ p.funcs.flatMap (·.declarations)

end Tree

namespace Walk

variable {α β : Type} {f f' : Nat → List Symbol.Untyped} {enums : EnumTable} {s : State}

/-- Whether a walk that leaves no error declares what `f` says of the depth at which it starts. -/
structure Adds (x : Walk α) (f : Nat → List Symbol.Untyped) : Prop where
  steps : Steps x
  gives : ∀ {s : State} {a : α} {s' : State}, x.Gives s a s' → s'.log.Clean → s'.scopes.depth = s.scopes.depth ∧
    s'.log.symbols.map (·.untyped) = s.log.symbols.map (·.untyped) ++ f s.scopes.depth

/-- A walk that declares nothing. -/
abbrev Quiet (x : Walk α) : Prop :=
  x.Adds fun _ => []

namespace Adds

variable {x : Walk α} {y : α → Walk β} {issue : Issue}

theorem bind (hx : x.Adds f) (hy : ∀ a, (y a).Adds f') : (x >>= y).Adds fun n => f n ++ f' n where
  steps := hx.steps.bind fun a => (hy a).steps
  gives h hclean := by
    obtain ⟨a, s1, hfirst, hrest⟩ := gives_bind.1 h
    have hextends := (hy a).steps.honest.extends_of_gives hrest
    obtain ⟨hdepth, hsymbols⟩ := hx.gives hfirst (hextends.clean hclean)
    obtain ⟨hdepth', hsymbols'⟩ := (hy a).gives hrest hclean
    exact ⟨hdepth'.trans hdepth, by rw [hsymbols', hsymbols, hdepth, append_assoc]⟩

theorem quiet_bind (hx : x.Quiet) (hy : ∀ a, (y a).Adds f) : (x >>= y).Adds f :=
  hx.bind hy

theorem bind_quiet (hx : x.Adds f) (hy : ∀ a, (y a).Quiet) : (x >>= y).Adds f := by
  simpa only [append_nil] using hx.bind hy

theorem ite {c : Prop} [Decidable c] {y : Walk α} (hx : x.Adds f) (hy : y.Adds f) : (if c then x else y).Adds f := by
  split
  · exact hx
  · exact hy

/-- Nothing is accepted after an error. -/
theorem fails (hplain : issue.plain = true) (hfatal : issue.IsFatal) (span : Span) {y : Unit → Walk α}
    (hy : ∀ u, Steps (y u)) : (do y (← report issue span)).Adds f where
  steps := (Steps.report hplain span).bind hy
  gives h hclean := by
    obtain ⟨u, s1, hreport, hrest⟩ := gives_bind.1 h
    obtain rfl := gives_report.1 hreport
    exact absurd hfatal ((hy u).honest.extends_of_gives hrest |>.clean hclean).not_isFatal_of_addFinding

theorem quiet (hsteps : Steps x) (h : ∀ {s a s'}, x.Gives s a s' → s'.scopes = s.scopes ∧
    s'.log.symbols = s.log.symbols) : x.Quiet where
  steps := hsteps
  gives hgives _ := by
    obtain ⟨hscopes, hsymbols⟩ := h hgives
    rw [hscopes, hsymbols, append_nil]
    exact ⟨rfl, rfl⟩

theorem pure (a : α) : (pure a : Walk α).Quiet :=
  quiet (.pure a) fun h => by
    obtain ⟨-, rfl⟩ := gives_pure.1 h
    exact ⟨rfl, rfl⟩

theorem map {g : α → β} (hx : x.Adds f) : (x >>= fun a => Pure.pure (g a)).Adds f :=
  hx.bind_quiet fun _ => pure _

theorem report (hplain : issue.plain = true) (span : Span) : (report issue span).Quiet :=
  quiet (.report hplain span) fun h => by
    obtain rfl := gives_report.1 h
    exact ⟨rfl, rfl⟩

theorem reportGap (gap : Gap) (span : Span) : (reportGap gap span).Quiet :=
  quiet (.reportGap gap span) fun h => by
    obtain rfl := gives_reportGap.1 h
    exact ⟨rfl, rfl⟩

theorem giveUp (habort : issue.aborts = true) (span : Span) : (giveUp issue span : Walk α).Adds f where
  steps := .giveUp habort span
  gives h := absurd h gives_giveUp

theorem tell (event : Event) : (tell event).Quiet :=
  quiet (.tell event) fun h => by
    obtain rfl := gives_tell.1 h
    exact ⟨rfl, rfl⟩

theorem recordMatch (span : Span) (type : Ty) : (recordMatch span type).Quiet :=
  quiet (.recordMatch span type) fun h => by
    obtain rfl := gives_recordMatch.1 h
    exact ⟨rfl, rfl⟩

theorem scopes : scopes.Quiet :=
  quiet .scopes fun h => by
    obtain ⟨-, rfl⟩ := gives_scopes.1 h
    exact ⟨rfl, rfl⟩

theorem lookup (name : String) (span : Span) : (lookup name span).Quiet :=
  quiet (.lookup name span) fun h => by
    obtain ⟨-, rfl⟩ := finds_of_lookup h
    exact ⟨rfl, rfl⟩

theorem reportIf {issue : Option Issue} (hplain : ∀ i, issue = some i → i.plain = true) (span : Span) :
    (reportIf issue span).Quiet := by
  cases issue with
  | none => exact pure _
  | some issue => exact report (hplain issue rfl) span

theorem resolveType (enums : EnumTable) (label : Option TypeLabel) : (resolveType enums label).Quiet := by
  rw [Walk.resolveType]
  split
  · next hfinding => exact (report (plain_of_labelFinding? hfinding) _).map
  · exact pure _

theorem headType (enums : EnumTable) (declared : Bool) (label : Option TypeLabel) :
    (headType enums declared label).Quiet :=
  ite (pure _) (resolveType _ _)

theorem literal (expected : Ty) (span : Span) (value : Literal) : (literal expected span value).Quiet := by
  cases value with
  | int =>
    exact ite (pure _) (ite ((report rfl _).map) (pure _))
  | float | bool => exact pure _

theorem inScope {deferred : Bool} (hx : x.Adds f) : (inScope deferred x).Adds fun n => f (n + 1) where
  steps := .inScope deferred hx.steps
  gives h hclean := by
    obtain ⟨s1, hbody, rfl⟩ := gives_inScope.1 h
    obtain ⟨hdepth, hsymbols⟩ := hx.gives hbody hclean
    refine ⟨?_, hsymbols⟩
    rw [Scopes.depth, Scopes.pop, length_tail]
    exact congrArg (· - 1) hdepth

theorem define (symbol : Symbol) (span : Span) :
    (define symbol span).Adds fun n => [{ symbol with depth := n, span := some span }.untyped] where
  steps := .define symbol span
  gives h _ := by
    obtain ⟨hscopes, hsymbols⟩ := of_define h
    rw [hscopes, hsymbols, map_append]
    exact ⟨Scopes.depth_declare _ _ _, rfl⟩

theorem pattern (enums : EnumTable) (type : Ty) (enumName : Option String) (p : Pattern) :
    (pattern enums type enumName p).Adds p.declarations := by
  cases p with
  | wildcard => exact pure _
  | literal =>
    rw [Walk.pattern]
    split
    · next hissue => exact report (plain_of_patternIssue? hissue) _
    · exact pure _
  | bind => exact define _ _
  | variant span name variant args =>
    rw [Walk.pattern]
    have hcount : Quiet (if 0 < (args.getD []).length then
        Walk.report (.patternArity name variant (args.getD []).length) span else Pure.pure ()) :=
      ite (report rfl _) (pure _)
    split
    · next hissue => exact report (plain_of_variantIssue? hissue) _
    · dsimp only
      split
      · exact ite ((report rfl _).quiet_bind fun _ => hcount) hcount
      · exact hcount

end Adds

section Trees

variable (env : Env)

mutual

theorem expr_adds (expected : Ty) : ∀ e : Expr Unit, (expr env expected e).Adds e.declarations
  | .literal _ _ => (Adds.literal _ _ _).map
  | .ident _ _ => (Adds.lookup _ _).quiet_bind fun _ => .ite (.fails rfl (by rfl) _ fun _ => .pure _) (.pure _)
  | .variant _ _ _ => (Adds.reportIf (fun _ => plain_of_variantIssue?) _).map
  | .binary _ _ lhs rhs => (expr_adds _ lhs).bind fun _ => (expr_adds _ rhs).map
  | .assign _ target rhs => by
    cases target with
    | ident =>
      exact (Adds.lookup _ _).quiet_bind fun _ => (Adds.reportIf (fun _ => plain_of_assignIssue?) _).quiet_bind fun _ =>
          (expr_adds _ rhs).map
    | _ =>
      -- What stands in a target that is not a name is never walked.
      exact .fails rfl (by rfl) _ fun _ => (expr_steps env _ rhs).bind fun _ => .pure _
  | .call _ callee args => by
    cases callee with
    | ident =>
      exact (Adds.lookup _ _).quiet_bind fun _ => .ite
        (.ite (.fails rfl (by rfl) _ fun _ => (arguments_steps env _ args).bind fun _ => .pure _)
          ((arguments_adds _ args).map))
        (.giveUp rfl _)
    | _ =>
      exact .fails rfl (by rfl) _ fun _ => (arguments_steps env _ args).bind fun _ => .pure _
  | .paren _ inner => (expr_adds _ inner).map
  | .select m => (selection_adds _ m).map

theorem arguments_adds (params : List Ty) : ∀ args : List (Expr Unit),
    (arguments env params args).Adds (Expr.listDeclarations args)
  | [] => .pure _
  | arg :: args => (expr_adds _ arg).bind fun _ => (arguments_adds _ args).map

theorem selection_adds (expected : Ty) : ∀ m : Match Unit, (selection env expected m).Adds m.declarations
  | .mk _ _ scrutinee arms => by
    refine (expr_adds _ scrutinee).bind fun _ => Adds.scopes.quiet_bind fun _ =>
      (armList_adds _ _ _ _ arms).bind_quiet fun _ => ?_
    dsimp only
    split
    case' h_1 => refine (Adds.reportGap _ _).bind_quiet fun _ => ?_
    all_goals exact (Adds.recordMatch _ _).map

theorem armList_adds (expected type : Ty) (enumName : Option String) (sofar : Ty) :
    ∀ arms : List (Arm Unit), (armList env expected type enumName sofar arms).Adds (Arm.listDeclarations arms)
  | [] => .pure _
  | arm :: arms => by
    rw [armList]
    exact ((Adds.pattern _ _ _ _).bind fun _ => armBody_adds _ _ arm).inScope.bind fun _ =>
      (armList_adds _ _ _ _ arms).map

theorem armBody_adds (expected sofar : Ty) : ∀ arm : Arm Unit, (armBody env expected sofar arm).Adds arm.declarations
  | .block _ _ body => (block_adds body).map
  | .value _ _ value => (expr_adds _ value).map

theorem block_adds : ∀ b : Block Unit, (block env b).Adds b.declarations
  | .mk _ stmts => by
    rw [block]
    exact (stmtList_adds stmts).inScope.map

theorem stmtList_adds : ∀ stmts : List (Stmt Unit), (stmtList env stmts).Adds (Stmt.listDeclarations stmts)
  | [] => .pure _
  | stmt :: stmts => (statement_adds stmt).bind fun _ => (stmtList_adds stmts).map

theorem chain_adds : ∀ c : IfChain Unit, (chain env c).Adds c.declarations
  | .only _ condition body => (expr_adds _ condition).bind fun _ => (block_adds body).map
  | .orElse _ condition body other =>
    (expr_adds _ condition).bind fun _ => (block_adds body).bind fun _ =>
      (block_adds other).map
  | .orIf _ condition body next =>
    (expr_adds _ condition).bind fun _ => (block_adds body).bind fun _ =>
      (chain_adds next).map

theorem statement_adds : ∀ stmt : Stmt Unit, (statement env stmt).Adds stmt.declarations
  | .block body => (block_adds body).map
  | .decl span modes name nameSpan label init => by
    have hdecl : (statement env (.decl span modes name nameSpan label init)).Adds fun n =>
        init.elim [] (·.declarations n) ++ [.slot n name nameSpan] := by
      refine (Adds.resolveType _ _).quiet_bind fun _ => .ite (.fails rfl (by rfl) _ fun _ => ?_) ?_
      · exact (initializer_steps env _ _).bind fun _ => (Steps.define _ _).bind fun _ =>
          (Steps.tell _).bind fun _ => .pure _
      · exact (initializer_adds _ init).bind fun _ => (Adds.define _ _).bind_quiet fun _ =>
          (Adds.tell _).map
    cases init <;> exact hdecl
  | .cond c => (chain_adds c).map
  | .loop _ condition body => (expr_adds _ condition).bind fun _ => (block_adds body).map
  | .select m => (selection_adds _ m).map
  | .ret _ none => .ite ((Adds.report rfl _).map) (.pure _)
  | .ret _ (some value) =>
    .ite ((Adds.report rfl _).quiet_bind fun _ => (expr_adds _ value).map)
      ((expr_adds _ value).map)
  | .expr _ value => (expr_adds _ value).map

theorem initializer_adds (type : Ty) : ∀ init : Option (Expr Unit),
    (initializer env type init).Adds fun n => init.elim [] (·.declarations n)
  | none => .pure _
  | some init => (expr_adds _ init).map

end

end Trees

theorem parameters_adds (enums : EnumTable) (declared : Bool) (params : List Param) :
    (parameters enums declared params).Adds fun n => params.map fun p => .register n p.name p.span := by
  induction params with
  | nil => exact .pure _
  | cons _ _ ih =>
    exact (Adds.headType _ _ _).quiet_bind fun _ => (Adds.define _ _).bind fun _ =>
      (Adds.tell _).quiet_bind fun _ => ih

theorem function_adds {f : FuncDef Unit} {declared : Bool} {s' : State} {f' : FuncDef Ty}
    (h : (function enums f declared).Gives s f' s') (hclean : s'.log.Clean) (hmodule : s.scopes.depth = 0) :
    s'.log.symbols.map (·.untyped) = s.log.symbols.map (·.untyped) ++ f.declarations := by
  rw [function, gives_bind] at h
  obtain ⟨_, s1, htell, h⟩ := h
  obtain rfl := gives_tell.1 htell
  rw [gives_bind] at h
  obtain ⟨_, s2, hpush, h⟩ := h
  obtain rfl := gives_push.1 hpush
  have hinside := (Adds.headType enums declared f.result).quiet_bind fun result =>
    (parameters_adds enums declared f.params).bind fun _ => (block_adds ⟨enums, result.1⟩ f.body).bind_quiet
      fun body => (Adds.tell (.functionLeft f.name)).bind_quiet fun _ => .pure { f with body }
  have hdepth : s.scopes.push.depth = 1 := congrArg (· + 1) hmodule
  have hsymbols := (hinside.gives h hclean).2
  rw [hdepth] at hsymbols
  exact hsymbols

theorem definition_adds {f : FuncDef Unit} {declared : Bool}
    (hclean : (definition enums f declared s).2.log.Clean) (hmodule : s.scopes.depth = 0) :
    (definition enums f declared s).2.scopes.depth = 0 ∧
      (definition enums f declared s).2.log.symbols.map (·.untyped) =
        s.log.symbols.map (·.untyped) ++ f.declarations := by
  rcases gives_or_stops (function enums f declared) s with ⟨f', s', h⟩ | ⟨reason, s', h⟩
  · rw [definition_of_gives h] at hclean ⊢
    have hsymbols := function_adds h hclean hmodule
    exact ⟨rfl, hsymbols⟩
  · have hfatal := (function_honest enums f declared).isFatal_of_stops h
    rw [definition_of_stops h] at hclean
    exact absurd hfatal hclean.not_isFatal_of_addFinding

theorem definitions_adds {defs : List (FuncDef Unit × Bool)}
    (hclean : (definitions enums defs s).2.log.Clean) (hmodule : s.scopes.depth = 0) :
    (definitions enums defs s).2.log.symbols.map (·.untyped) =
      s.log.symbols.map (·.untyped) ++ defs.flatMap (·.1.declarations) := by
  induction defs generalizing s with
  | nil => simp [definitions]
  | cons _ defs ih =>
    obtain ⟨hdepth, hhead⟩ := definition_adds ((extends_definitions enums defs _).clean hclean) hmodule
    rw [flatMap_cons, ← append_assoc, ← hhead]
    exact ih hclean hdepth

end Walk

namespace Header

theorem symbols_foldl {β : Type} {step : Log → β → Log} (h : ∀ log b, (step log b).symbols = log.symbols) (bs : List β)
    (log : Log) : (bs.foldl step log).symbols = log.symbols :=
  foldlRecOn bs step (motive := fun log' => log'.symbols = log.symbols) rfl fun _ hb _ _ => (h _ _).trans hb

theorem symbols_checkLabel (enums : EnumTable) (log : Log) (label : Option TypeLabel) :
    (checkLabel enums log label).symbols = log.symbols := by
  rw [checkLabel]
  split <;> rfl

theorem symbols_checkParam (enums : EnumTable) (log : Log) (param : Param) :
    (checkParam enums log param).symbols = log.symbols := by
  rw [checkParam]
  split <;> exact symbols_checkLabel _ _ _

/-- The first symbols of a program are its functions; the built-in one is not among them. -/
theorem funcs_ofProgram (p : Program Unit) : (ofProgram p).funcs = printFunction :: (ofProgram p).log.symbols := by
  have henums : (p.enums.foldl addEnum {}).funcs = printFunction :: (p.enums.foldl addEnum {}).log.symbols := by
    refine foldlRecOn p.enums addEnum (motive := fun h => h.funcs = printFunction :: h.log.symbols) ?_ ?_
    · rfl
    · intro h hfuncs e _
      rw [addEnum]
      split
      · exact hfuncs
      · simp [Log.addEvent, symbols_foldl, Log.addFinding, hfuncs]
  refine foldlRecOn p.funcs addFunc (motive := fun h => h.funcs = printFunction :: h.log.symbols) henums ?_
  intro h hfuncs f _
  rw [addFunc]
  split
  · exact hfuncs
  · simp [Log.addSymbol, symbols_foldl (symbols_checkParam _), symbols_checkLabel, hfuncs]

end Header

namespace Program

/-- The symbols of a program without errors are what its tree declares. -/
theorem symbols_are_declarations (p : Program Unit) (strict : Bool) (h : (p.analyze strict).hasErrors = false) :
    (p.analyze strict).symbols.map (·.untyped) = p.declarations := by
  have hclean := clean_of_hasErrors h
  obtain ⟨hfuncs, hdefs, hscopes, -⟩ := Header.of_ofProgram_clean ((Walk.extends_definitions _ _ _).clean hclean)
  have hsymbols : (Header.ofProgram p).log.symbols = p.funcs.map (Header.symbol (Header.ofProgram p).enums) :=
    (cons.inj ((Header.funcs_ofProgram p).symm.trans hfuncs)).2
  have hdepth : (Header.ofProgram p).scopes.depth = 0 := by
    rw [hscopes, Scopes.depth, Analysis.moduleScopes, Header.declareAll_inner_eq_nil rfl]
    rfl
  refine (Walk.definitions_adds hclean hdepth).trans ?_
  rw [hsymbols, hdefs, map_map, flatMap_map]
  rfl

/-- A match in the initial value of a variable. -/
def matchBeforeVariable : Source :=
  .ofText "fn f(a: i32) { let b: i32 = match a { c => c }; }"

theorem symbols_are_declarations_matchBeforeVariable :
      ∃ p, matchBeforeVariable.parse = .ok p ∧ (p.analyze true).hasErrors = false ∧
      (p.analyze true).symbols.map (·.untyped) = p.declarations ∧
      p.declarations.map (fun d => (d.name, d.depth, d.assignable)) =
        [("f", 0, false), ("a", 1, false), ("c", 3, false), ("b", 2, true)] := by
  obtain ⟨p, hparse, herrors, hdeclared⟩ : ∃ p, matchBeforeVariable.parse = .ok p ∧ (p.analyze true).hasErrors = false ∧
      p.declarations.map (fun d => (d.name, d.depth, d.assignable)) =
        [("f", 0, false), ("a", 1, false), ("c", 3, false), ("b", 2, true)] :=
    exists_eq_ok_of_any (by decide +kernel)
  exact ⟨p, hparse, herrors, symbols_are_declarations p true herrors, hdeclared⟩

end Program

end LocLang
