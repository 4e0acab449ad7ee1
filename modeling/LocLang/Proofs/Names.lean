import LocLang.Proofs.Lockstep

namespace LocLang

open Lower

variable {μ : Type}

/-- The name that an expression refers to by itself: as a value, as what is assigned to, or as what is called unless it
    is the function that prints. -/
def Expr.mentions? : Expr μ → Option String
  | .ident _ name => some name
  | .assign _ (.ident _ name) _ => some name
  | .call _ (.ident _ name) _ => if name = printName then none else some name
  | _ => none

/-- How the lowering of a function, the one of the given number, declares a name. The signature of a function is made of
    what the analysis says of it; a variable has what its statement declares; an arm names the value that is matched. -/
inductive Lower.Declares (a : Analysis) (index : Nat) (env : Env) : Origin → String → Binding → Prop where
  | function {i : Nat} {g : FuncDef Ty} {symbol : Symbol} (hg : a.checked[i]? = some g)
      (hsymbol : a.function? g.name = some symbol) :
      Declares a index env (.function i) g.name (.function symbol.signature)
  | parameter {i : Nat} {f : FuncDef Ty} {symbol : Symbol} {name : String} {q : IrParam}
      (hf : a.checked[index]? = some f) (hsymbol : a.function? f.name = some symbol)
      (hq : ((f.params.map (·.name)).zip (f.irParams symbol.signature))[i]? = some (name, q)) :
      Declares a index env (.parameter i) name (.value (.param q.name q.type))
  | variable {place : TreePath} {span nameSpan : Span} {modes : Modes} {name : String} {label : TypeLabel}
      {init : Option (Expr Ty)} {d d' : Draft} {b : Binding}
      (hvisit : Visits a index env place (.statement (.decl span modes name nameSpan label init)) d)
      (hstmt : (statement env (.decl span modes name nameSpan label init)).Gives d () d')
      (hscopes : d'.scopes = d.scopes.declare name b) : Declares a index env (.variable place) name b
  | binding {place : TreePath} {n : Nat} {v : Operand} {slot : Option Slot} {k : Nat} {arm : Arm Ty}
      {arms : List (Arm Ty)} {d : Draft} {span : Span} {name : String}
      (hvisit : Visits a index env place (.armList n v slot k (arm :: arms)) d)
      (hpattern : arm.pattern = .bind span name) : Declares a index env (.binding (0 :: place)) name (.value v)

/-- How the walk of a function, the one of the given number, declares a name. -/
inductive Walk.Declares (p : Program Unit) (strict : Bool) (index : Nat) (env : Walk.Env) :
    Origin → String → Symbol → Prop where
  | function {i : Nat} {g : FuncDef Unit} (hg : p.funcs[i]? = some g) :
      Declares p strict index env (.function i) g.name (Header.symbol env.enums g)
  | parameter {i : Nat} {f : FuncDef Unit} {q : Param} (hf : p.funcs[index]? = some f) (hq : f.params[i]? = some q) :
      Declares p strict index env (.parameter i) q.name { env.enums.parameter q with depth := 1, span := some q.span }
  | variable {place : TreePath} {span nameSpan : Span} {modes : Modes} {name : String} {label : TypeLabel}
      {init : Option (Expr Unit)} {s s' : Walk.State} {stmt : Stmt Ty} {symbol : Symbol}
      (hvisit : Walk.Visits p strict index env place (.statement (.decl span modes name nameSpan label init)) s)
      (hstmt : (Walk.statement env (.decl span modes name nameSpan label init)).Gives s stmt s')
      (hscopes : s'.scopes = s.scopes.declare name symbol) : Declares p strict index env (.variable place) name symbol
  | binding {place : TreePath} {expected type : Ty} {enumName : Option String} {sofar : Ty} {arm : Arm Unit}
      {arms : List (Arm Unit)} {s : Walk.State} {span : Span} {name : String}
      (hvisit : Walk.Visits p strict index env place (.armList expected type enumName sofar (arm :: arms)) s)
      (hpattern : arm.pattern = .bind span name) :
      Declares p strict index env (.binding (0 :: place)) name
        { name, type, enumName, kind := .value, storage := .register, depth := s.scopes.depth + 1, span := some span }

/-- How what a name is bound to is held. -/
def Binding.storage : Binding → Storage
  | slot _ => .slot
  | value _ | function _ => .register

/-- The type of the value, or of what the function returns. -/
def Binding.type : Binding → MachineTy
  | slot s => s.type
  | value v => v.type
  | function s => s.result

/-- Whether an origin declares a name as the given symbol and as the given binding, which are held alike and, but for
    matched values, have the same type. -/
structure Origin.Declares (a : Analysis) (p : Program Unit) (strict : Bool) (index : Nat) (f : FuncDef Ty)
    (origin : Origin) (name : String) (symbol : Symbol) (b : Binding) : Prop where
  walked : Walk.Declares p strict index (f.walkEnv a.enums) origin name symbol
  lowered : Lower.Declares a index (f.lowerEnv a.enums) origin name b
  storage : b.storage = symbol.storage
  type : (∀ arm, origin ≠ .binding arm) → b.type = symbol.type.machine

theorem Walk.known_of_decl {env : Walk.Env} {span nameSpan : Span} {modes : Modes} {name : String} {label : TypeLabel}
    {init : Option (Expr Unit)} {s s' : Walk.State} {stmt : Stmt Ty}
    (h : (Walk.statement env (.decl span modes name nameSpan label init)).Gives s stmt s') (hclean : s'.log.Clean) :
    (env.enums.labelType (some label)).1 ≠ .unknown ∧ (env.enums.labelType (some label)).1 ≠ .void := by
  obtain ⟨-, -, -, hchecked, herase⟩ := (Walk.statement_accepts env _).of_gives h hclean
  cases stmt with
  | decl _ _ _ _ _ init =>
    cases init <;> cases herase <;> exact ⟨hchecked.1, hchecked.2.1⟩
  | ret _ value => cases value <;> cases herase
  | _ => cases herase

theorem Lockstep.declares {a : Analysis} {p : Program Unit} {strict : Bool} {index : Nat} {f : FuncDef Ty}
    (ha : a.Accepts p) (hf : a.checked[index]? = some f) :
    Lockstep.Declares a p strict index f (Origin.Declares a p strict index f) where
  function {i g} hg := by
    have hget : p.funcs[i]? = some g.erase := by
      rw [← ha.erase_eq, List.getElem?_map, hg]
      rfl
    exact ⟨.function hget, .function hg (function?_eq_some ha (List.mem_of_getElem? hg)), rfl, fun _ => rfl⟩
  parameter {i q} hq := by
    have hget : p.funcs[index]? = some f.erase := by
      rw [← ha.erase_eq, List.getElem?_map, hf]
      rfl
    have hsymbol := function?_eq_some ha (List.mem_of_getElem? hf)
    have hirParam : ((f.params.map (·.name)).zip (f.irParams (f.signature a.enums)))[i]? =
        some (q.name, q.lowered a.enums) := by
      rw [FuncDef.irParams_signature, List.zip_map', List.getElem?_map, hq]
      rfl
    exact ⟨.parameter hget hq, .parameter hf hsymbol hirParam, rfl, fun _ => rfl⟩
  declaration h hlower hd hwalk hs hclean := by
    have hlowered := h.lowered.call (k := 0) rfl (gives_pure.2 ⟨rfl, rfl⟩)
    have hwalked := h.walked.call (k := 0) rfl (Walk.gives_pure.2 ⟨rfl, rfl⟩)
    refine ⟨.variable hwalked hwalk hs, .variable hlowered hlower hd, rfl, fun _ => ?_⟩
    exact congrArg Ty.machine (EnumTable.ofName_eq_labelType (Walk.known_of_decl hwalk hclean).1)
  binding h _ hpattern hpattern' :=
    ⟨.binding h.walked hpattern', .binding h.lowered hpattern, rfl, fun harm => absurd rfl (harm _)⟩

/-- An expression that is lowered finds the name that it refers to. -/
theorem Lower.finds_of_expr {env : Env} {e : Expr Ty} {d d' : Draft} {v : Operand} {name : String}
    (h : (expr env e).Gives d v d') (hname : e.mentions? = some name) : ∃ b, d.scopes.Finds name b := by
  cases e with
  | ident =>
    cases hname
    obtain ⟨b, d1, hlookup, -⟩ := gives_bind.1 h
    exact ⟨b, (gives_lookup.1 hlookup).1⟩
  | assign _ place =>
    cases place <;> cases hname
    obtain ⟨slot, d1, htarget, -⟩ := gives_bind.1 h
    obtain ⟨b, d2, hlookup, -⟩ := gives_bind.1 htarget
    exact ⟨b, (gives_lookup.1 hlookup).1⟩
  | call _ callee =>
    cases callee with
    | ident =>
      rw [Expr.mentions?] at hname
      split at hname
      · cases hname
      · cases hname
        rw [expr_call_ident, if_neg ‹name ≠ printName›] at h
        obtain ⟨s, d1, hcallee, -⟩ := gives_bind.1 h
        exact ⟨_, (gives_callee.1 hcallee).1⟩
    | _ => cases hname
  | _ => cases hname

namespace Program

/-- Names are resolved by sight. Wherever an expression that refers to a name is lowered in a program without errors, it
    was walked at the same place, and there is a nearest declaration of the name in sight of that place. The analysis
    finds what this declaration declared to it, the lowering finds what it declared to that, and both are held alike.
    Unless an arm declares the name, they also have the same type. -/
theorem names_resolve_by_sight (p : Program Unit) (strict : Bool) (herrors : (p.analyze strict).hasErrors = false)
    (index : Nat) (env : Env) (place : TreePath) (e : Expr Ty) (d : Draft) (name : String)
    (hvisit : Visits (p.analyze strict) index env place (.expr e) d) (hname : e.mentions? = some name) :
    ∃ f sight origin, (p.analyze strict).checked[index]? = some f ∧
      (Node.block f.body).part? (f.sight ((p.analyze strict).checked.map (·.name))) place = some (sight, .expr e) ∧
      sight.lookup name = some origin ∧
      ∃ up expected s symbol b, Walk.Visits p strict index up place (.expr expected (e.map fun _ => ())) s ∧
        s.scopes.Finds name symbol ∧ Walk.Declares p strict index up origin name symbol ∧
        d.scopes.Finds name b ∧ Lower.Declares (p.analyze strict) index env origin name b ∧
        b.storage = symbol.storage ∧ ((∀ arm, origin ≠ .binding arm) → b.type = symbol.type.machine) := by
  have ha := accepts_of_hasErrors herrors
  obtain ⟨f, u, s, hf, rfl, hstep⟩ := hvisit.lockstep herrors
  obtain ⟨m, hlower, -⟩ := program_lowers ha herrors {}
  obtain ⟨-, -, -, -, -, d', hrun, -⟩ := hvisit.doneIn hlower
  obtain ⟨v, _, hexpr, -⟩ := gives_bind.1 hrun
  obtain ⟨b, hb⟩ := finds_of_expr hexpr hname
  obtain ⟨sight, hpart, haligned⟩ := hstep.aligned ha (Lockstep.declares ha hf)
  obtain ⟨origin, symbol, hsight, hsymbol, hdeclares⟩ := haligned.resolve hb
  have herase := hstep.erase
  cases u <;> cases herase
  exact ⟨f, sight, origin, hf, hpart, hsight, _, _, s, symbol, b, hstep.walked, hsymbol, hdeclares.walked, hb,
    hdeclares.lowered, hdeclares.storage, hdeclares.type⟩

/-- Declares a variable under the name of its parameter, and another one in a block inside. -/
def shadows : Program Unit :=
  let here : Span := ⟨.origin, .origin⟩
  let label (name : String) : TypeLabel := .mk here name []
  let x : Expr Unit := .ident here "x"
  let print : Stmt Unit := .expr here (.call here (.ident here "print") [x])
  { defs :=
      [.func
        { span := here, name := "shadow", nameSpan := here, params := [⟨here, {}, "x", label "i32"⟩], result := none,
          body := .mk here
            [.decl here {} "x" here (label "i64") (some x),
             .block (.mk here [.decl here {} "x" here (label "bool") (some (.binary here .gt x x)), print]),
             print] }] }

theorem names_resolve_by_sight_shadows : (shadows.analyze true).hasErrors = false ∧ ∃ env e d b,
      Visits (shadows.analyze true) 0 env [0, 0, 0, 0, 1, 0, 0, 0, 1, 0] (.expr e) d ∧ e.mentions? = some "x" ∧
      d.scopes.Finds "x" b ∧ Lower.Declares (shadows.analyze true) 0 env (.variable [0, 0, 0, 0, 1, 0]) "x" b := by
  have hsight : ∀ f ∈ (shadows.analyze true).checked[0]?, ∀ part ∈ (Node.block f.body).part?
      (f.sight ((shadows.analyze true).checked.map (·.name))) [0, 0, 0, 0, 1, 0, 0, 0, 1, 0],
      part.1.lookup "x" = some (.variable [0, 0, 0, 0, 1, 0]) := by
    decide +kernel
  have hvisit : ∃ env e d, Visits (shadows.analyze true) 0 env [0, 0, 0, 0, 1, 0, 0, 0, 1, 0] (.expr e) d ∧
      e.mentions? = some "x" := by
    have hcomputes : (visit? (shadows.analyze true) 0 [0, 0, 0, 0, 1, 0, 0, 0, 1, 0]).any fun v =>
        match v.2.1 with
        | .expr e => e.mentions? = some "x"
        | _ => false := by
      decide +kernel
    obtain ⟨⟨env, t, d⟩, hvisit, hname⟩ := (Option.any_eq_true _ _).1 hcomputes
    dsimp only at hname
    split at hname
    · exact ⟨env, _, d, visit?_eq_some.1 hvisit, by simpa using hname⟩
    · cases hname
  obtain ⟨env, e, d, hvisit, hname⟩ := hvisit
  obtain ⟨f, sight, origin, hf, hpart, horigin, -, -, -, -, b, -, -, -, hb, hdeclares, -⟩ :=
    names_resolve_by_sight shadows true rfl 0 env _ e d "x" hvisit hname
  obtain rfl := Option.some.inj (horigin.symm.trans (hsight f hf _ hpart))
  exact ⟨rfl, env, e, d, b, hvisit, hname, hb, hdeclares⟩

end Program

end LocLang
