import LocLang.Proofs.Analysis.Isolation
import LocLang.Proofs.Tree.Trimmed

namespace LocLang

namespace Walk

variable {α β γ δ : Type} {x : Walk α} {f : α → β} {issue : Issue}

/-- Whether a state is as strict as another one, has the same scopes and only findings of the other one. -/
structure State.Spares (s s' : State) : Prop where
  strict : s'.strict = s.strict
  scopes : s'.scopes = s.scopes
  findings : s'.log.findings.Sublist s.log.findings

theorem State.Spares.refl (s : State) : s.Spares s :=
  ⟨rfl, rfl, List.Sublist.refl _⟩

/-- Whether the second walk comes to its end where the first one does without an error, with what `f` makes of its value
    and no more findings. -/
structure Spares (x : Walk α) (x' : Walk β) (f : α → β) : Prop where
  honest : Honest x
  gives : ∀ {s s' t : State} {a : α}, s.Spares s' → x.Gives s a t → t.log.Clean → ∃ t',
    x'.Gives s' (f a) t' ∧ t.Spares t'

/-- Whether the second walk does so in a scope that is closed afterwards, so that it need not declare the same there. -/
structure SparesInside (x : Walk α) (x' : Walk β) (f : α → β) : Prop where
  steps : Steps x
  gives : ∀ {s s' t : State} {a : α}, s.Spares s' → s.scopes.inner ≠ [] → x.Gives s a t → t.log.Clean →
    ∃ t', x'.Gives s' (f a) t' ∧ t'.strict = t.strict ∧ t'.scopes.pop = t.scopes.pop ∧
      t'.log.findings.Sublist t.log.findings

theorem SparesInside.inScope (deferred : Bool) {x' : Walk β} (hx : SparesInside x x' f) :
    Spares (inScope deferred x) (inScope deferred x') f where
  honest := (Steps.inScope deferred hx.steps).honest
  gives {s s' t a} hs h hclean := by
    obtain ⟨t1, hbody, rfl⟩ := gives_inScope.1 h
    have hpush : State.Spares { s with scopes := s.scopes.push } { s' with scopes := s'.scopes.push } :=
      ⟨hs.strict, congrArg Scopes.push hs.scopes, hs.findings⟩
    obtain ⟨t1', hbody', hstrict, hpop, hfindings⟩ := hx.gives hpush (Scopes.push_inner_ne_nil _) hbody hclean
    exact ⟨_, gives_inScope.2 ⟨t1', hbody', rfl⟩, hstrict, hpop, hfindings⟩

namespace Spares

variable {x : Walk α} {x' : Walk β} {f : α → β}

theorem bind {g : α → Walk γ} {g' : β → Walk δ} {h : γ → δ} (hx : Spares x x' f)
    (hg : ∀ a, Spares (g a) (g' (f a)) h) : Spares (x >>= g) (x' >>= g') h where
  honest := hx.honest.bind fun a => (hg a).honest
  gives hs hgives hclean := by
    obtain ⟨a, t1, hfirst, hrest⟩ := gives_bind.1 hgives
    obtain ⟨t1', hfirst', ht1⟩ := hx.gives hs hfirst (((hg a).honest.extends_of_gives hrest).clean hclean)
    obtain ⟨t', hrest', ht⟩ := (hg a).gives ht1 hrest hclean
    exact ⟨t', gives_bind.2 ⟨f a, t1', hfirst', hrest'⟩, ht⟩

theorem inside (hx : Spares x x' f) (hsteps : Steps x) : SparesInside x x' f where
  steps := hsteps
  gives hs _ h hclean := by
    obtain ⟨t', hgives, ht⟩ := hx.gives hs h hclean
    exact ⟨t', hgives, ht.strict, congrArg Scopes.pop ht.scopes, ht.findings⟩

/-- Steps that always go on spare findings if they do so from every state. -/
theorem of_step {value : State → α} {next : State → State} (hx : Honest x)
    (hrun : ∀ s, x.run s = (.ok (value s), next s))
    (hstep : ∀ {s s' : State}, s.Spares s' → value s' = value s ∧ (next s).Spares (next s')) : Spares x x id where
  honest := hx
  gives {s s' t a} hs h _ := by
    obtain ⟨rfl, rfl⟩ := (gives_of_run_eq (hrun s)).1 h
    exact ⟨_, (hstep hs).1 ▸ hrun s', (hstep hs).2⟩

theorem pure {a : α} {b : β} (h : f a = b) : Spares (pure a) (pure b) f where
  honest := .pure a
  gives hs hgives _ := by
    obtain ⟨rfl, rfl⟩ := gives_pure.1 hgives
    exact ⟨_, gives_pure.2 ⟨h, rfl⟩, hs⟩

theorem giveUp (habort : issue.aborts = true) (span : Span) : Spares (giveUp issue span : Walk α) x' f where
  honest := (Steps.giveUp habort span).honest
  gives _ h := absurd h gives_giveUp

/-- Nothing comes after an error. -/
theorem fails (hfatal : issue.IsFatal) (span : Span) (hx : Honest x) :
    Spares (report issue span >>= fun _ => x) x' f where
  honest := (Honest.report issue span).bind fun _ => hx
  gives _ h hclean := by
    obtain ⟨_, t1, hreport, h⟩ := gives_bind.1 h
    obtain rfl := gives_report.1 hreport
    exact absurd hfatal ((hx.extends_of_gives h).clean hclean).not_isFatal_of_addFinding

theorem push : Spares push push id :=
  of_step .push (fun _ => rfl) fun hs => ⟨rfl, hs.strict, congrArg Scopes.push hs.scopes, hs.findings⟩

theorem ite {c : Prop} [Decidable c] {y : Walk α} {y' : Walk β} (hx : Spares x x' f) (hy : Spares y y' f) :
    Spares (if c then x else y) (if c then x' else y') f := by
  split
  · exact hx
  · exact hy

end Spares

/-- A walk from a state with fewer findings ends with fewer findings. -/
theorem Steps.spares (h : Steps x) : Spares x x id := by
  induction h with
  | pure => exact .pure rfl
  | bind _ _ ihx ihf => exact ihx.bind ihf
  | report _ span =>
    exact .of_step (.report _ span) (fun _ => rfl) fun hs =>
      ⟨rfl, hs.strict, hs.scopes, hs.findings.append (List.Sublist.refl _)⟩
  | reportGap gap span =>
    refine .of_step (Steps.reportGap gap span).honest (run_reportGap gap span) fun hs => ⟨rfl, hs.strict, hs.scopes, ?_⟩
    rw [hs.strict]
    exact hs.findings.append (List.Sublist.refl _)
  | giveUp abort span => exact .giveUp abort span
  | tell event => exact .of_step (.tell event) (fun _ => rfl) fun hs => ⟨rfl, hs.strict, hs.scopes, hs.findings⟩
  | recordMatch span type =>
    exact .of_step (Steps.recordMatch span type).honest (fun _ => rfl) fun hs =>
      ⟨rfl, hs.strict, hs.scopes, hs.findings⟩
  | scopes => exact .of_step Steps.scopes.honest (fun _ => rfl) fun hs => ⟨hs.scopes, hs⟩
  | declare symbol =>
    exact .of_step (Steps.declare symbol).honest (fun _ => rfl) fun hs =>
      ⟨rfl, hs.strict, congrArg (·.declare symbol.name symbol) hs.scopes, hs.findings⟩
  | inScope deferred hx ih => exact (ih.inside hx).inScope deferred

/-- One step after which both walks go on with the same value. -/
theorem Spares.step {y : Walk γ} {g : γ → Walk α} {g' : γ → Walk β} (hy : Steps y) (hg : ∀ c, Spares (g c) (g' c) f) :
    Spares (y >>= g) (y >>= g') f :=
  hy.spares.bind hg

/-- Something to report under a condition, and what comes after it in any case. -/
theorem Spares.reported {c : Prop} [Decidable c] {span : Span} {x' : Walk β} (hissue : issue.plain = true)
    (hx : Spares x x' f) : Spares (if c then report issue span >>= fun _ => x else x)
    (if c then report issue span >>= fun _ => x' else x') f :=
  .ite (.step (.report hissue span) fun _ => hx) hx

theorem enumName?_trimmed (table : Scopes Symbol) : ∀ e : Expr Unit, e.trimmed.enumName? table = e.enumName? table
  | .call _ callee _ => by cases callee <;> simp only [Expr.trimmed, Expr.enumName?]
  | .assign _ target _ => enumName?_trimmed table target
  | .paren _ inner => enumName?_trimmed table inner
  | .ident _ _ | .literal _ _ | .variant _ _ _ | .binary _ _ _ _ | .select
    _ => by simp only [Expr.trimmed, Expr.enumName?]

section Trees

variable (env : Env)

mutual

theorem expr_spares (expected : Ty) : ∀ e, Spares (expr env expected e)
    (expr env expected e.trimmed) fun r => (r.1, r.2.trimmed)
  | .literal span value => .step (.literal expected span value) fun _ => .pure rfl
  | .ident span name => .step (.lookup name span) fun _ => .reported rfl (.pure rfl)
  | .variant span _ _ => .step (.reportIf (fun _ => plain_of_variantIssue?) span) fun _ => .pure rfl
  | .binary _ _ lhs rhs => (expr_spares .unknown lhs).bind fun _ => (expr_spares .unknown rhs).bind fun _ => .pure rfl
  | .assign _ target rhs => by
    cases target with
    | ident targetSpan name =>
      exact .step (.lookup name targetSpan) fun symbol => .step (.reportIf (fun _ => plain_of_assignIssue?) _) fun _ =>
        (expr_spares symbol.type rhs).bind fun _ => .pure rfl
    | _ =>
      exact .fails (by rfl) _ ((expr_steps env .unknown rhs).honest.bind fun _ => .pure _)
  | .call _ callee args => by
    cases callee with
    | ident calleeSpan name =>
      simp only [Expr.trimmed, expr, Expr.length_trimmedList]
      exact .step (.lookup name calleeSpan) fun symbol =>
        .ite (.reported rfl ((arguments_spares symbol.params args).bind fun _ => .pure rfl)) (.giveUp rfl _)
    | _ =>
      exact .fails (by rfl) _ ((arguments_steps env [] args).honest.bind fun _ => .pure _)
  | .paren _ inner => (expr_spares expected inner).bind fun _ => .pure rfl
  | .select m => (selection_spares expected m).bind fun _ => .pure rfl

theorem arguments_spares (params : List Ty) : ∀ args, Spares (arguments env params args)
    (arguments env params (Expr.trimmedList args)) Expr.trimmedList
  | [] => .pure rfl
  | arg :: args => (expr_spares _ arg).bind fun _ => (arguments_spares _ args).bind fun _ => .pure rfl

theorem selection_spares (expected : Ty) : ∀ m, Spares (selection env expected m)
    (selection env expected m.trimmed) fun r => (r.1, r.2.trimmed)
  | .mk span _ scrutinee arms => by
    simp only [Match.trimmed, selection, Arm.patterns_trimmedList, enumName?_trimmed]
    refine (expr_spares .unknown scrutinee).bind ?_
    rintro ⟨type, scrutinee'⟩
    refine .step .scopes fun table => (armList_spares expected type (scrutinee.enumName? table) .unknown arms).bind ?_
    rintro ⟨joined, arms'⟩
    cases env.enums.gap? type (scrutinee.enumName? table) (arms.map (·.pattern)) with
    | none => exact .step (.recordMatch span _) fun _ => .pure rfl
    | some gap => exact .step (.reportGap gap _) fun _ => .step (.recordMatch span _) fun _ => .pure rfl

theorem armList_spares (expected type : Ty) (enumName : Option String) (sofar : Ty) :
    ∀ arms, Spares (armList env expected type enumName sofar arms)
      (armList env expected type enumName sofar (Arm.trimmedList arms)) fun r => (r.1, Arm.trimmedList r.2)
  | [] => .pure rfl
  | arm :: arms => by
    simp only [Arm.trimmedList, armList, Arm.pattern_trimmed]
    have hpattern := Steps.pattern env.enums type enumName arm.pattern
    exact ((Spares.step hpattern fun _ => armBody_spares expected sofar arm).inside
      (hpattern.bind fun _ => armBody_steps env expected sofar arm)).inScope false |>.bind fun r =>
      (armList_spares expected type enumName r.1 arms).bind fun _ => .pure rfl

theorem armBody_spares (expected sofar : Ty) : ∀ arm, Spares (armBody env expected sofar arm)
    (armBody env expected sofar arm.trimmed) fun r => (r.1, r.2.trimmed)
  | .block _ _ body => (block_spares body).bind fun _ => .pure rfl
  | .value _ _ value => (expr_spares _ value).bind fun _ => .pure rfl

theorem block_spares : ∀ b, Spares (block env b) (block env b.trimmed) Block.trimmed
  | .mk _ stmts => by
    simp only [Block.trimmed, block]
    exact ((stmtList_spares stmts).inScope true).bind fun _ => .pure rfl

theorem stmtList_spares : ∀ stmts, SparesInside (stmtList env stmts)
    (stmtList env (Stmt.trimmedList stmts)) Stmt.trimmedList
  | [] => Spares.inside (.pure rfl) (.pure _)
  | stmt :: stmts => by
    refine ⟨stmtList_steps env _, @fun s s' t r hs hopen h hclean => ?_⟩
    simp only [stmtList, gives_bind, gives_pure] at h
    obtain ⟨v, t1, hfirst, vs, t2, hrest, rfl, rfl⟩ := h
    have hrestLog := (stmtList_steps env stmts).honest.extends_of_gives hrest
    have hclean1 := hrestLog.clean hclean
    obtain ⟨t1', hfirst', ht1⟩ := (statement_spares stmt).gives hs hfirst hclean1
    have hsame := (statement_steps env stmt).contained.sameOutside hfirst hopen
    have hends : v.terminates = stmt.terminates := by
      rw [← Stmt.terminates_map fun _ => (), ((statement_accepts env stmt).of_gives hfirst hclean1).fact.2.2]
    simp only [Stmt.trimmedList, hends]
    by_cases hterminates : stmt.terminates
    · -- What comes after is walked in the scope of the block only.
      have hrestSame := (stmtList_steps env stmts).contained.sameOutside hrest hsame.open_right
      simp only [hterminates, if_true, stmtList, gives_bind, gives_pure]
      have hstrict : t1.strict = t.strict := by
        have hrun := (stmtList_steps env stmts).strict_run t1
        rw [hrest] at hrun
        exact hrun.symm
      exact ⟨t1', ⟨v.trimmed, t1', hfirst', [], t1', ⟨rfl, rfl⟩, rfl, rfl⟩,
        ht1.strict.trans hstrict, by rw [ht1.scopes, hrestSame.pop_eq], ht1.findings.trans hrestLog.findings.sublist⟩
    · obtain ⟨t2', hrest', hstrict, hpop, hfindings⟩ := (stmtList_spares stmts).gives ht1 hsame.open_right hrest hclean
      simp only [hterminates, Bool.false_eq_true, if_false, stmtList, gives_bind, gives_pure]
      exact ⟨t2', ⟨v.trimmed, t1', hfirst', _, t2', hrest', rfl, rfl⟩, hstrict, hpop, hfindings⟩

theorem chain_spares : ∀ c, Spares (chain env c) (chain env c.trimmed) IfChain.trimmed
  | .only _ condition body => (expr_spares .bool condition).bind fun _ => (block_spares body).bind fun _ => .pure rfl
  | .orElse _ condition body other =>
    (expr_spares .bool condition).bind fun _ => (block_spares body).bind fun _ =>
    (block_spares other).bind fun _ => .pure rfl
  | .orIf _ condition body next =>
    (expr_spares .bool condition).bind fun _ => (block_spares body).bind fun _ =>
    (chain_spares next).bind fun _ => .pure rfl

theorem statement_spares : ∀ stmt, Spares (statement env stmt) (statement env stmt.trimmed) Stmt.trimmed
  | .block body => (block_spares body).bind fun _ => .pure rfl
  | .decl _ _ _ nameSpan label init => by
    rw [Stmt.trimmed_decl, statement, statement]
    refine .step (.resolveType env.enums (some label)) fun resolved => ?_
    exact .reported rfl ((initializer_spares _ init).bind fun _ => .step (.define _ nameSpan) fun _ =>
      .step (.tell _) fun _ =>
      .pure (Stmt.trimmed_decl ..))
  | .cond c => (chain_spares c).bind fun _ => .pure rfl
  | .loop _ condition body => (expr_spares .bool condition).bind fun _ => (block_spares body).bind fun _ => .pure rfl
  | .select m => (selection_spares .void m).bind fun _ => .pure rfl
  | .ret _ none => .reported rfl (.pure rfl)
  | .ret _ (some value) => by
    simp only [Stmt.trimmed, statement, Expr.span_trimmed]
    exact .reported rfl ((expr_spares _ value).bind fun _ => .pure rfl)
  | .expr _ value => (expr_spares .unknown value).bind fun _ => .pure rfl

theorem initializer_spares (type : Ty) : ∀ init, Spares (initializer env type init)
    (initializer env type (init.map (·.trimmed))) (·.map (·.trimmed))
  | none => .pure rfl
  | some init => (expr_spares type init).bind fun _ => .pure rfl

end

end Trees

theorem function_spares (enums : EnumTable) (f : FuncDef Unit) (declared : Bool) :
    Spares (function enums f declared) (function enums f.trimmed declared) (·.trimmed) :=
  .step (.tell _) fun _ => Spares.push.bind fun _ => .step (.headType _ _ _) fun head =>
    .step (.parameters _ _ _) fun _ =>
  (block_spares ⟨enums, head.1⟩ f.body).bind fun _ => .step (.tell _) fun _ => .pure rfl

/-- Functions that are walked without errors are walked to their end without their dead statements. -/
theorem definitions_spare (enums : EnumTable) (defs : List (FuncDef Unit × Bool)) {s s' : State} (hs : s.Spares s')
    (hclean : (definitions enums defs s).2.log.Clean) :
    (definitions enums (defs.map fun d => (d.1.trimmed, d.2)) s').1 = (definitions enums defs s).1.map (·.trimmed) ∧
      (definitions enums defs s).2.Spares (definitions enums (defs.map fun d => (d.1.trimmed, d.2)) s').2 := by
  induction defs generalizing s s' with
  | nil => exact ⟨rfl, hs⟩
  | cons d defs ih =>
    have hfirst := (extends_definitions enums defs (definition enums d.1 d.2 s).2).clean hclean
    have hdefinition : (definition enums d.1.trimmed d.2 s').1 = (definition enums d.1 d.2 s).1.map (·.trimmed) ∧
        (definition enums d.1 d.2 s).2.Spares (definition enums d.1.trimmed d.2 s').2 := by
      rcases gives_or_stops (function enums d.1 d.2) s with ⟨checked, t, hgives⟩ | ⟨reason, t, hstops⟩
      · rw [definition_of_gives hgives] at hfirst ⊢
        obtain ⟨t', hgives', ht⟩ := (function_spares enums d.1 d.2).gives hs hgives hfirst
        rw [definition_of_gives hgives']
        exact ⟨rfl, ht.strict, congrArg Scopes.leave ht.scopes, ht.findings⟩
      · rw [definition_of_stops hstops] at hfirst
        exact absurd ((function_honest enums d.1 d.2).isFatal_of_stops hstops) hfirst.not_isFatal_of_addFinding
    obtain ⟨hrest, hlast⟩ := ih hdefinition.2 hclean
    refine ⟨?_, hlast⟩
    simp only [List.map_cons, definitions, List.map_append, hdefinition.1, hrest]
    cases (definition enums d.1 d.2 s).1 <;> rfl

end Walk

theorem Header.addFuncs_trimmed (h : Header) (fs : List (FuncDef Unit)) :
    (fs.map (·.trimmed)).foldl addFunc (h.withDefs (h.defs.map fun d => (d.1.trimmed, d.2))) =
      (fs.foldl addFunc h).withDefs ((fs.foldl addFunc h).defs.map fun d => (d.1.trimmed, d.2)) := by
  induction fs generalizing h with
  | nil => rfl
  | cons f _ ih =>
    have hdefs : (h.addFunc f).defs = h.defs ++ [(f, (h.nameIssue? f.name).isNone)] := by
      have hadd := addFunc_withDefs h h.defs f f.body
      rw [withDefs_eq_self rfl] at hadd
      rw [hadd]
      rfl
    have hstep : (h.withDefs (h.defs.map fun d => (d.1.trimmed, d.2))).addFunc f.trimmed =
        (h.addFunc f).withDefs ((h.addFunc f).defs.map fun d => (d.1.trimmed, d.2)) := by
      rw [hdefs, List.map_append]
      exact addFunc_withDefs h _ f f.body.trimmed
    rw [List.map_cons, List.foldl_cons, List.foldl_cons, hstep, ih]

/-- Functions are declared by their heads, which have no statements. -/
theorem Header.ofProgram_trimmed (p : Program Unit) :
    ofProgram p.trimmed = (ofProgram p).withDefs ((ofProgram p).defs.map fun d => (d.1.trimmed, d.2)) := by
  have hdefs : (p.enums.foldl addEnum {}).defs = [] := (addEnums_eq {} p.enums).2.1
  have hstart := addFuncs_trimmed (p.enums.foldl addEnum {}) p.funcs
  rw [hdefs, List.map_nil, withDefs_eq_self hdefs] at hstart
  rw [ofProgram, p.funcs_trimmed, p.enums_trimmed]
  exact hstart

/-- Without its dead statements a program without errors has none either, and its functions are the same without their
    dead statements. -/
theorem Program.analyze_trimmed {p : Program Unit} {strict : Bool} (h : (p.analyze strict).hasErrors = false) :
    (p.trimmed.analyze strict).hasErrors = false ∧ (p.trimmed.analyze strict).enums = (p.analyze strict).enums ∧
      (p.trimmed.analyze strict).funcs = (p.analyze strict).funcs ∧
      (p.trimmed.analyze strict).checked = (p.analyze strict).checked.map (·.trimmed) := by
  have hheader := Header.ofProgram_trimmed p
  obtain ⟨hchecked, hspares⟩ := Walk.definitions_spare (Header.ofProgram p).enums (Header.ofProgram p).defs
    (.refl ⟨strict, (Header.ofProgram p).scopes, (Header.ofProgram p).log⟩) (clean_of_hasErrors h)
  refine ⟨?_, ?_, ?_, ?_⟩
  · simp only [Analysis.hasErrors, analyze, List.any_eq_false, hheader] at h ⊢
    intro d hd
    exact h d ((hspares.findings.map (·.diagnostic)).subset hd)
  · rw [analyze, hheader]
    rfl
  · rw [analyze, hheader]
    rfl
  · rw [analyze, hheader]
    exact hchecked

end LocLang
