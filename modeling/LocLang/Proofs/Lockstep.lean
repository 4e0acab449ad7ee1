import LocLang.Proofs.Analysis.Visits
import LocLang.Proofs.Lowering.Visits

namespace LocLang

open Lower

variable {μ : Type}

/-- What the body of a function is walked against. -/
def FuncDef.walkEnv (enums : EnumTable) (f : FuncDef μ) : Walk.Env :=
  ⟨enums, (enums.labelType f.result).1⟩

/-- What the body of a function is lowered against. -/
def FuncDef.lowerEnv (enums : EnumTable) (f : FuncDef μ) : Env :=
  ⟨enums, (enums.labelType f.result).1.machine⟩

/-- The parts of the function `f`, the one of the given number, as they are lowered and walked in step. A walk gives
    back the part that is lowered and finds nothing fatal. -/
inductive Lockstep (a : Analysis) (p : Program Unit) (strict : Bool) (index : Nat) (f : FuncDef Ty) :
    TreePath → Task → Draft → Walk.Task → Walk.State → Prop where
  | body {d : Draft} {s s' : Walk.State}
      (lowered : Visits a index (f.lowerEnv a.enums) [] (.block f.body) d)
      (walked : Walk.Visits p strict index (f.walkEnv a.enums) [] (.block f.erase.body) s)
      (lowerScopes : d.scopes = declareParameters (declareAll a.enums .empty a.checked).push
        (f.params.map fun q => (q.name, q.lowered a.enums)))
      (walkScopes : s.scopes = Param.listScopes a.enums (Analysis.moduleScopes a.enums p.funcs).push f.params)
      (run : ((Walk.Task.block f.erase.body).run (f.walkEnv a.enums)).Gives s (.block f.body) s')
      (clean : s'.log.Clean) :
      Lockstep a p strict index f [] (.block f.body) d (.block f.erase.body) s
  | call {place : TreePath} {t t' : Task} {d d' : Draft} {u u' : Walk.Task} {s s1 s' : Walk.State} {k : Nat}
      {x : Lower Task} {y : Walk Walk.Task} (parent : Lockstep a p strict index f place t d u s)
      (lowered : (t.calls (f.lowerEnv a.enums))[k]? = some x) (lowers : x.Gives d t' d')
      (walked : (u.calls (f.walkEnv a.enums))[k]? = some y) (walks : y.Gives s u' s1)
      (run : (u'.run (f.walkEnv a.enums)).Gives s1 t'.node s') (clean : s'.log.Clean) :
      Lockstep a p strict index f (k :: place) t' d' u' s1

namespace Lockstep

variable {a : Analysis} {p : Program Unit} {strict : Bool} {index : Nat} {f : FuncDef Ty} {place : TreePath} {t : Task}
  {d : Draft} {u : Walk.Task} {s : Walk.State}

theorem lowered (h : Lockstep a p strict index f place t d u s) : Visits a index (f.lowerEnv a.enums) place t d := by
  induction h with
  | body lowered => exact lowered
  | call _ lowered lowers _ _ _ _ ih => exact ih.call lowered lowers

theorem walked (h : Lockstep a p strict index f place t d u s) :
    Walk.Visits p strict index (f.walkEnv a.enums) place u s := by
  induction h with
  | body _ walked => exact walked
  | call _ _ _ walked walks _ _ ih => exact ih.call walked walks

theorem run (h : Lockstep a p strict index f place t d u s) :
    ∃ s', (u.run (f.walkEnv a.enums)).Gives s t.node s' ∧ s'.log.Clean := by
  cases h with
  | body _ _ _ _ run clean => exact ⟨_, run, clean⟩
  | call _ _ _ _ _ run clean => exact ⟨_, run, clean⟩

theorem erase (h : Lockstep a p strict index f place t d u s) : (t.node.map fun _ => ()) = u.node := by
  obtain ⟨s', hrun, hclean⟩ := h.run
  exact Walk.Task.erase_of_run hrun hclean

end Lockstep

/-- Whatever is lowered in a program without errors was walked. -/
theorem Lower.Visits.lockstep {p : Program Unit} {strict : Bool} (herrors : (p.analyze strict).hasErrors = false)
    {index : Nat} {env : Env} {place : TreePath} {t : Task} {d : Draft}
    (h : Visits (p.analyze strict) index env place t d) :
    ∃ f u s, (p.analyze strict).checked[index]? = some f ∧ env = f.lowerEnv (p.analyze strict).enums ∧
      Lockstep (p.analyze strict) p strict index f place t d u s := by
  induction h with
  | @body f _ hf henter =>
    obtain ⟨hscopes, rfl⟩ := scopes_of_enter (Program.accepts_of_hasErrors herrors) hf henter
    obtain ⟨_, s, s', -, hdefs, rfl, hwalk, hscopes', hrun, hclean⟩ := Walk.exists_enter herrors hf
    have hnode : ((Walk.Task.block f.erase.body).run (f.walkEnv (p.analyze strict).enums)).Gives s (.block f.body) s' :=
      Walk.gives_bind.2 ⟨_, _, hrun, Walk.gives_pure.2 ⟨rfl, rfl⟩⟩
    exact ⟨f, _, s, hf, rfl, .body (.body hf henter) (.body hdefs hwalk) hscopes hscopes' hnode hclean⟩
  | @call _ _ _ _ _ _ _ _ hx hcall ih =>
    obtain ⟨f, u, s, hf, rfl, hstep⟩ := ih
    obtain ⟨s', hrun, hclean⟩ := hstep.run
    obtain ⟨y, u', s1, s2, hy, hwalk, hrun', hclean'⟩ :=
      Walk.Task.exists_call hrun hclean (Task.children_of_call hx hcall)
    exact ⟨f, u', s1, hf, rfl, .call hstep hx hcall hy hwalk hrun' hclean'⟩

/-- What is declared before anything else. -/
def builtins : List (Scope.Entry Symbol) :=
  (Scopes.empty.declare printFunction.name printFunction).entries

/-- What a relation between symbols and bindings has to hold of, to hold of everything that is declared: functions,
    parameters, variables and the names of matched values. For the latter it is known to hold of what is in sight of
    the match. -/
structure Lockstep.Declares (a : Analysis) (p : Program Unit) (strict : Bool) (index : Nat) (f : FuncDef Ty)
    (R : Origin → String → Symbol → Binding → Prop) : Prop where
  function : ∀ {i : Nat} {g : FuncDef Ty}, a.checked[i]? = some g →
    R (.function i) g.name (Header.symbol a.enums g.erase) (.function (g.signature a.enums))
  parameter : ∀ {i : Nat} {q : Param}, f.params[i]? = some q →
    R (.parameter i) q.name { a.enums.parameter q with depth := 1, span := some q.span }
      (.value (.param (q.lowered a.enums).name (q.lowered a.enums).type))
  declaration : ∀ {place : TreePath} {span nameSpan : Span} {modes : Modes} {name : String} {label : TypeLabel}
    {init : Option (Expr Ty)} {init' : Option (Expr Unit)} {stmts : List (Stmt Ty)} {stmts' : List (Stmt Unit)}
    {d d' : Draft} {s s' : Walk.State} {stmt : Stmt Ty} {i : Nat},
    Lockstep a p strict index f place (.stmtList (.decl span modes name nameSpan label init :: stmts)) d
      (.stmtList (.decl span modes name nameSpan label init' :: stmts')) s →
    (statement (f.lowerEnv a.enums) (.decl span modes name nameSpan label init)).Gives d () d' →
    d'.scopes = d.scopes.declare name (.slot ⟨.named name i, (Ty.ofName label.name).machine⟩) →
    (Walk.statement (f.walkEnv a.enums) (.decl span modes name nameSpan label init')).Gives s stmt s' →
    s'.scopes = s.scopes.define (a.enums.variable modes name label) nameSpan → s'.log.Clean →
    R (.variable (0 :: place)) name
      { a.enums.variable modes name label with depth := s.scopes.depth, span := some nameSpan }
      (.slot ⟨.named name i, (Ty.ofName label.name).machine⟩)
  binding : ∀ {place : TreePath} {n : Nat} {v : Operand} {slot : Option Slot} {i : Nat} {arm : Arm Ty}
    {arms : List (Arm Ty)} {expected type : Ty} {enumName : Option String} {sofar : Ty} {arm' : Arm Unit}
    {arms' : List (Arm Unit)} {d : Draft} {s : Walk.State} {span : Span} {name : String},
    Lockstep a p strict index f place (.armList n v slot i (arm :: arms)) d
      (.armList expected type enumName sofar (arm' :: arms')) s →
    (∃ sight, Aligned R builtins sight s.scopes.entries d.scopes.entries) → arm.pattern = .bind span name →
      arm'.pattern = .bind span name →
    R (.binding (0 :: place)) name
      { name, type, enumName, kind := .value, storage := .register, depth := s.scopes.depth + 1, span := some span }
      (.value v)

namespace Aligned

variable {R : Origin → String → Symbol → Binding → Prop} {enums : EnumTable} {sight : Sight} {s : Scopes Symbol}
  {t : Scopes Binding}

theorem functions {fs : List (FuncDef Ty)} {n : Nat} (h : Aligned R builtins sight s.entries t.entries)
    (hR : ∀ {i : Nat} {g : FuncDef Ty}, fs[i]? = some g →
      R (.function (n + i)) g.name (Header.symbol enums g.erase) (.function (g.signature enums))) :
    Aligned R builtins ((((fs.map (·.name)).zipIdx n).map fun g => (g.1, Origin.function g.2)).reverse ++ sight)
      (Header.declareAll enums s (fs.map (·.erase))).entries (declareAll enums t fs).entries := by
  induction fs generalizing n sight s t with
  | nil => exact h
  | cons _ _ ih =>
    rw [List.map_cons, List.zipIdx_cons, List.map_cons, List.reverse_cons, List.append_assoc, List.singleton_append]
    have hg := hR (i := 0) rfl
    refine ih (n := n + 1) (h.declare hg) fun {i g'} hg' => ?_
    rw [Nat.add_assoc, Nat.add_comm 1 i]
    exact hR (i := i + 1) hg'

theorem parameters {ps : List Param} {n : Nat} (h : Aligned R builtins sight s.entries t.entries)
    (hR : ∀ {i : Nat} {q : Param}, ps[i]? = some q →
      R (.parameter (n + i)) q.name { enums.parameter q with depth := s.depth, span := some q.span }
        (.value (.param (q.lowered enums).name (q.lowered enums).type))) :
    Aligned R builtins (((ps.zipIdx n).map fun q => (q.1.name, Origin.parameter q.2)).reverse ++ sight)
      (Param.listScopes enums s ps).entries
      (declareParameters t (ps.map fun q => (q.name, q.lowered enums))).entries := by
  induction ps generalizing n sight s t with
  | nil => exact h
  | cons q _ ih =>
    rw [List.zipIdx_cons, List.map_cons, List.reverse_cons, List.append_assoc, List.singleton_append]
    have hq := hR (i := 0) rfl
    have hdepth : (s.define (enums.parameter q) q.span).depth = s.depth := s.depth_declare _ _
    refine ih (n := n + 1) (h.declare hq) fun {i q'} hq' => ?_
    simp only [hdepth]
    rw [Nat.add_assoc, Nat.add_comm 1 i]
    exact hR (i := i + 1) hq'

end Aligned

namespace Lockstep

variable {a : Analysis} {p : Program Unit} {strict : Bool} {index : Nat} {f : FuncDef Ty} {place : TreePath} {t : Task}
  {d : Draft} {u : Walk.Task} {s : Walk.State} {R : Origin → String → Symbol → Binding → Prop}

theorem Declares.top (h : Declares a p strict index f R) (ha : a.Accepts p) :
      Aligned R builtins (f.sight (a.checked.map (·.name)))
      (Param.listScopes a.enums (Analysis.moduleScopes a.enums p.funcs).push f.params).entries
      (declareParameters (declareAll a.enums .empty a.checked).push
        (f.params.map fun q => (q.name, q.lowered a.enums))).entries := by
  have hdepth : (Analysis.moduleScopes a.enums p.funcs).push.depth = 1 := by
    have hinner : (Analysis.moduleScopes a.enums p.funcs).inner = [] := Header.declareAll_inner_eq_nil rfl
    simp [Scopes.depth, Scopes.push, hinner]
  have hmodule : Aligned R builtins ((((a.checked.map (·.name)).zipIdx 0).map fun g =>
      (g.1, Origin.function g.2)).reverse ++ []) (Analysis.moduleScopes a.enums p.funcs).entries
      (declareAll a.enums .empty a.checked).entries := by
    rw [Analysis.moduleScopes, ← ha.erase_eq]
    refine Aligned.functions .start fun hg => ?_
    rw [Nat.zero_add]
    exact h.function hg
  rw [List.append_nil] at hmodule
  refine hmodule.push.parameters fun hq => ?_
  rw [Nat.zero_add, hdepth]
  exact h.parameter hq

/-- A name that a part declares for a piece is declared in both tables. -/
theorem Declares.step (hR : Declares a p strict index f R) {t' : Task} {d' : Draft} {u' : Walk.Task} {s' : Walk.State}
    {k : Nat} {x : Lower Task} {y : Walk Walk.Task} (h : Lockstep a p strict index f place t d u s)
    (lowered : (t.calls (f.lowerEnv a.enums))[k]? = some x) (lowers : x.Gives d t' d')
    (walked : (u.calls (f.walkEnv a.enums))[k]? = some y) (walks : y.Gives s u' s') (hclean : s'.log.Clean)
    {q : String × Origin} (hq : t.node.declaration? place k = some q) {sight : Sight}
    (haligned : Aligned R builtins sight s.scopes.entries d.scopes.entries) :
    Aligned R builtins (q :: sight) s'.scopes.entries d'.scopes.entries := by
  have herase := h.erase
  obtain ⟨span, modes, name, nameSpan, label, init, stmts, hnode, rfl, rfl⟩ |
    ⟨arm, arms, span, name, hnode, hpattern, rfl, rfl⟩ := Node.of_declaration?_eq_some hq
  · cases t <;> cases hnode
    cases u <;> cases init <;> cases herase
    all_goals
      obtain ⟨hlower, i, hd⟩ := Task.scopes_of_decl lowered lowers
      obtain ⟨⟨stmt, hwalk⟩, hs⟩ := Walk.Task.scopes_of_decl walked walks hclean
      rw [hs, hd]
      exact haligned.declare (hR.declaration h hlower hd hwalk hs hclean)
  · cases t <;> cases hnode
    cases u <;> cases herase
    have hpattern' : (arm.map fun _ => ()).pattern = .bind span name := by
      rw [← hpattern]
      cases arm <;> rfl
    rw [Task.scopes_of_bind hpattern lowered lowers, Walk.Task.scopes_of_bind hpattern' walked walks]
    exact haligned.push.declare (hR.binding h ⟨sight, haligned⟩ hpattern hpattern')

/-- The tables of both passes hold the declarations in sight and nothing else. -/
theorem aligned (h : Lockstep a p strict index f place t d u s) (ha : a.Accepts p)
    (hR : Declares a p strict index f R) :
    ∃ sight, (Node.block f.body).part? (f.sight (a.checked.map (·.name))) place = some (sight, t.node) ∧
      Aligned R builtins sight s.scopes.entries d.scopes.entries := by
  induction h with
  | body _ _ lowerScopes walkScopes =>
    rw [lowerScopes, walkScopes]
    exact ⟨_, rfl, hR.top ha⟩
  | @call place t _ _ _ u u' _ s1 _ k _ _ parent lowered lowers walked walks run clean ih =>
    obtain ⟨sight, hpart, haligned⟩ := ih
    refine ⟨_, Node.part?_cons hpart (Task.children_of_call lowered lowers), ?_⟩
    have hclean : s1.log.Clean := ((Walk.Task.run_honest u').extends_of_gives run).clean clean
    cases hq : t.node.declaration? place k with
    | none =>
      have hq' : u.node.declaration? place k = none := by
        rw [← parent.erase, Node.declaration?_map, hq]
      rw [Node.sight, hq, ((Task.leads_of_call _ lowered).stays hq).entries_eq lowers,
        ((Walk.Task.leads_of_call _ walked).stays hq').entries_eq walks hclean]
      exact haligned
    | some =>
      rw [Node.sight, hq]
      exact hR.step parent lowered lowers walked walks hclean hq haligned

end Lockstep

end LocLang
