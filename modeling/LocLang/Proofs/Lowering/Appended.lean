import LocLang.Ir.Text
import LocLang.Proofs.Lowering.Bare

namespace LocLang

open List

namespace Scopes

variable {α : Type} {name : String}

/-- Whether `t` differs from `s` only in further names that are declared in the module. -/
structure Under (s t : Scopes α) : Prop where
  inner_eq : t.inner = s.inner
  base : ∀ ⦃name entry⦄, s.base.get? name = some entry → t.base.get? name = some entry

namespace Under

variable {s t : Scopes α}

theorem push (h : s.Under t) : s.push.Under t.push :=
  ⟨congrArg ([] :: ·) h.inner_eq, h.base⟩

theorem pop (h : s.Under t) : s.pop.Under t.pop :=
  ⟨congrArg tail h.inner_eq, h.base⟩

theorem leave (h : s.Under t) : s.leave.Under t.leave :=
  ⟨rfl, h.base⟩

theorem declare (h : s.Under t) (name : String) (a : α) : (s.declare name a).Under (t.declare name a) := by
  obtain ⟨inner, base⟩ := s
  obtain ⟨inner', base'⟩ := t
  obtain rfl : inner' = inner := h.inner_eq
  cases inner' with
  | nil =>
    refine ⟨rfl, fun other entry hentry => ?_⟩
    by_cases hname : name = other
    · simpa [Scopes.declare, Scope.Frame.get?, hname, depth] using hentry
    · have hbase : base.get? other = some entry := by
        simpa [Scopes.declare, Scope.Frame.get?, hname] using hentry
      simpa [Scopes.declare, Scope.Frame.get?, hname] using h.base hbase
  | cons => exact ⟨rfl, h.base⟩

theorem finds (h : s.Under t) {a : α} (hfinds : s.Finds name a) : t.Finds name a := by
  obtain ⟨entry, hentry, rfl⟩ := hfinds
  refine ⟨entry, ?_, rfl⟩
  rw [resolve?, frames, findSome?_append] at hentry ⊢
  rw [h.inner_eq]
  cases hinner : s.inner.findSome? (·.get? name) with
  | some => rwa [hinner] at hentry
  | none =>
    rw [hinner] at hentry
    have hbase : s.base.get? name = some entry := by simpa using hentry
    simpa using h.base hbase

end Under

/-- A module that declares one more name. -/
theorem under_declare {s : Scopes α} (hinner : s.inner = []) (hfresh : s.resolve? name = none) (a : α) :
    s.Under (s.declare name a) := by
  obtain ⟨inner, base⟩ := s
  obtain rfl : inner = [] := hinner
  refine ⟨rfl, fun other entry hentry => ?_⟩
  have hne : name ≠ other := by
    rintro rfl
    have hnone : base.get? name = none := by simpa [resolve?, frames] using hfresh
    rw [show Scope.Frame.get? base name = some entry from hentry] at hnone
    cases hnone
  simpa [declare, Scope.Frame.get?, hne] using hentry

/-- A name that was not declared before hides nothing. -/
theorem knownIn_declare {s : Scopes Symbol} (hfresh : s.resolve? name = none) (symbol : Symbol) :
    s.KnownIn (s.declare name symbol) := by
  intro other found hfinds
  have hne : name ≠ other := by
    rintro rfl
    obtain ⟨entry, hentry, -⟩ := hfinds
    rw [hfresh] at hentry
    cases hentry
  exact ⟨found, finds_declare.2 (by rwa [if_neg hne]), .refl found⟩

end Scopes

namespace Lower

variable {α β : Type} {x : Lower α}

/-- Whether work goes the same way in a module that declares more. -/
structure Framed (x : Lower α) : Prop where
  frame : ∀ {d d' : Draft} {a : α} {t : Scopes Binding}, x.Gives d a d' → d.scopes.Under t →
    ∃ t', x.Gives { d with scopes := t } a { d' with scopes := t' } ∧ d'.scopes.Under t'

/-- Work that has nothing to do with scopes. -/
theorem Framed.of_scopes_eq
    (h : ∀ {d d' : Draft} {a : α}, x.Gives d a d' →
      d'.scopes = d.scopes ∧ ∀ t, x.Gives { d with scopes := t } a { d' with scopes := t }) : Framed x where
  frame hx ht := ⟨_, (h hx).2 _, (h hx).1 ▸ ht⟩

namespace Framed

theorem bind {f : α → Lower β} (hx : Framed x) (hf : ∀ {d a d'}, x.Gives d a d' → Framed (f a)) :
    Framed (x >>= f) := by
  refine ⟨fun h ht => ?_⟩
  obtain ⟨a, d1, hfirst, hrest⟩ := gives_bind.1 h
  obtain ⟨t1, hfirst', ht1⟩ := hx.frame hfirst ht
  obtain ⟨t', hrest', ht'⟩ := (hf hfirst).frame hrest ht1
  exact ⟨t', hfirst'.bind hrest', ht'⟩

protected theorem pure (a : α) : Framed (pure a : Lower α) :=
  .of_scopes_eq fun h => by
    obtain ⟨rfl, rfl⟩ := gives_pure.1 h
    exact ⟨rfl, fun _ => gives_pure.2 ⟨rfl, rfl⟩⟩

theorem emit (i : Inst) : Framed (emit i) :=
  .of_scopes_eq fun h => by
    obtain ⟨b, hb, rfl⟩ := gives_emit.1 h
    exact ⟨rfl, fun _ => gives_emit.2 ⟨b, hb, rfl⟩⟩

theorem newSlot (name : Nat → SlotName) (type : MachineTy) : Framed (newSlot name type) :=
  .of_scopes_eq fun h => by
    obtain ⟨rfl, rfl⟩ := gives_newSlot.1 h
    exact ⟨rfl, fun _ => gives_newSlot.2 ⟨rfl, rfl⟩⟩

theorem terminate (t : Terminator) : Framed (terminate t) :=
  .of_scopes_eq fun h => by
    obtain ⟨b, hb, rfl⟩ := gives_terminate.1 h
    exact ⟨rfl, fun _ => gives_terminate.2 ⟨b, hb, rfl⟩⟩

theorem terminateIfOpen (t : Terminator) : Framed (terminateIfOpen t) := by
  refine ⟨fun h ht => ?_⟩
  rcases gives_terminateIfOpen.1 h with h | ⟨hclosed, rfl⟩
  · obtain ⟨t', h', ht'⟩ := (terminate t).frame h ht
    exact ⟨t', gives_terminateIfOpen.2 (.inl h'), ht'⟩
  · exact ⟨_, gives_terminateIfOpen.2 (.inr ⟨hclosed, rfl⟩), ht⟩

theorem place (label : Label) : Framed (place label) :=
  .of_scopes_eq fun h => by
    obtain ⟨hb, rfl⟩ := gives_place.1 h
    exact ⟨rfl, fun _ => gives_place.2 ⟨hb, rfl⟩⟩

theorem lookup (name : String) : Framed (lookup name) := by
  refine ⟨fun h ht => ?_⟩
  obtain ⟨hfinds, rfl⟩ := gives_lookup.1 h
  exact ⟨_, gives_lookup.2 ⟨ht.finds hfinds, rfl⟩, ht⟩

end Framed

theorem Built.framed {rules : TreeRules} {c : Bool} {marks : List Mark} (h : Built (.of rules) c marks x) :
    Framed x := by
  induction h with
  | pure a => exact .pure a
  | fault f => exact .of_scopes_eq fun h => absurd h gives_fault
  | bind first rest ih ih' => exact ih.bind ih'
  | nextRegister =>
    refine .of_scopes_eq fun h => ?_
    obtain ⟨rfl, rfl⟩ := gives_nextRegister.1 h
    exact ⟨rfl, fun _ => gives_nextRegister.2 ⟨rfl, rfl⟩⟩
  | formatIndex f =>
    refine .of_scopes_eq fun h => ?_
    rcases gives_formatIndex_iff.1 h with ⟨hidx, rfl⟩ | ⟨hidx, rfl, rfl⟩
    · exact ⟨rfl, fun _ => gives_formatIndex_iff.2 (.inl ⟨hidx, rfl⟩)⟩
    · exact ⟨rfl, fun _ => gives_formatIndex_iff.2 (.inr ⟨hidx, rfl, rfl⟩)⟩
  | emit | access => exact .emit _
  | «variable» hname type => exact .newSlot _ type
  | result n type => exact .newSlot _ type
  | terminate t reached => exact .terminate t
  | brIfOpen label => exact .terminateIfOpen _
  | place inner => exact .place _
  | fail n rest ih => exact (Framed.place _).bind fun _ => (Framed.terminate _).bind fun _ => ih
  | isOpen =>
    refine .of_scopes_eq fun h => ?_
    obtain ⟨rfl, rfl⟩ := gives_isOpen.1 h
    exact ⟨rfl, fun _ => gives_isOpen.2 ⟨rfl, rfl⟩⟩
  | lookup name rest ih => exact (Framed.lookup name).bind fun {_ b _} _ => ih b fun _ _ => trivial
  | declare name slot =>
    refine ⟨fun h ht => ?_⟩
    obtain rfl := gives_declare.1 h
    exact ⟨_, gives_declare.2 rfl, ht.declare name _⟩
  | inScope inside ih =>
    refine ⟨fun h ht => ?_⟩
    obtain ⟨_, d1, hpush, h⟩ := gives_bind.1 h
    obtain ⟨_, d2, hinside, hpop⟩ := gives_bind.1 h
    obtain rfl := gives_pushScope.1 hpush
    obtain rfl := gives_popScope.1 hpop
    obtain ⟨t', hinside', ht'⟩ := ih.frame hinside ht.push
    exact ⟨_, ((gives_pushScope (u := ())).2 rfl).bind (hinside'.bind (gives_popScope.2 rfl)), ht'.pop⟩
  | numbered k inside own allowed ih =>
    refine ⟨fun h ht => ?_⟩
    obtain ⟨n, d1, hlabel, h⟩ := gives_bind.1 h
    obtain ⟨rfl, rfl⟩ := gives_nextLabel.1 hlabel
    obtain ⟨t', h', ht'⟩ := (ih _).frame h ht
    exact ⟨t', (gives_nextLabel.2 ⟨rfl, rfl⟩).bind h', ht'⟩

theorem under_declareParameters {s t : Scopes Binding} (h : s.Under t) (params : List (String × IrParam)) :
    (declareParameters s params).Under (declareParameters t params) := by
  induction params generalizing s t with
  | nil => exact h
  | cons _ _ ih => exact ih (h.declare _ _)

theorem framed_function (enums : EnumTable) (f : FuncDef Ty) : Framed (function enums f) where
  frame h ht := by
    obtain ⟨s, d1, d2, hfinds, hblock, hclose, rfl, rfl⟩ := gives_function.1 h
    obtain ⟨t1, hblock', ht1⟩ := (block_built _ f.body f.body.obeys_free : Built (.of .free) false _ _).framed.frame
        hblock (under_declareParameters ht.push _)
    obtain ⟨t2, hclose', ht2⟩ := (Framed.terminateIfOpen _).frame hclose ht1
    exact ⟨t2.leave, gives_function.2 ⟨s, _, _, ht.finds hfinds, hblock', hclose', rfl, rfl⟩, ht2.leave⟩

theorem framed_functions (enums : EnumTable) (fs : List (FuncDef Ty)) : Framed (functions enums fs) := by
  induction fs with
  | nil => exact .pure _
  | cons f _ ih =>
    exact (framed_function enums f).bind fun _ => ih.bind fun _ => .pure _

theorem gives_functions_append {enums : EnumTable} {fs fs' : List (FuncDef Ty)} {d d' d'' : Draft}
    {gs gs' : List IrFunction} (h : (functions enums fs).Gives d gs d') (h' : (functions enums fs').Gives d' gs' d'') :
    (functions enums (fs ++ fs')).Gives d (gs ++ gs') d'' := by
  induction fs generalizing d gs with
  | nil =>
    obtain ⟨rfl, rfl⟩ := gives_pure.1 h
    exact h'
  | cons _ _ ih =>
    obtain ⟨g, d1, hfirst, hrest⟩ := gives_bind.1 h
    obtain ⟨rest, d2, hrest, hgs⟩ := gives_bind.1 hrest
    obtain ⟨rfl, rfl⟩ := gives_pure.1 hgs
    exact hfirst.bind ((ih hrest).bind (gives_pure.2 ⟨rfl, rfl⟩))

end Lower

/-- The program with one more function at its end. -/
def Program.append {μ : Type} (p : Program μ) (f : FuncDef μ) : Program μ :=
  { p with defs := p.defs ++ [.func f] }

theorem Program.funcs_append {μ : Type} (p : Program μ) (f : FuncDef μ) : (p.append f).funcs = p.funcs ++ [f] := by
  simp [append, funcs]

theorem Program.enums_append {μ : Type} (p : Program μ) (f : FuncDef μ) : (p.append f).enums = p.enums := by
  simp [append, enums]

namespace Analysis

variable {a b : Analysis} {p : Program Unit} {f : FuncDef Unit}

/-- A new function has a name that nothing in the module had. -/
theorem Accepts.name_fresh (hb : b.Accepts (p.append f)) :
    f.name ≠ printFunction.name ∧ f.name ∉ p.funcs.map (·.name) := by
  have hnames : ((printFunction.name :: p.funcs.map (·.name)) ++ [f.name]).Nodup := by
    have hnodup := hb.names
    rw [hb.funcs_eq, Program.funcs_append, map_cons, map_map, map_append] at hnodup
    exact hnodup
  have hfresh := (nodup_append.1 hnames).2.2
  refine ⟨fun hprint => hfresh _ mem_cons_self f.name (by simp) hprint.symm, fun hmem => ?_⟩
  exact hfresh _ (mem_cons_of_mem _ hmem) f.name (by simp) rfl

/-- The functions of a program are checked to be the same when another one stands after them. -/
theorem Accepts.checked_append (ha : a.Accepts p) (hb : b.Accepts (p.append f)) (henums : b.enums = a.enums) :
    ∃ gs g, g.erase = f ∧ b.checked = gs ++ [g] ∧ gs.map (·.bare) = a.checked.map (·.bare) := by
  have herase := hb.erase_eq
  rw [Program.funcs_append, map_eq_append_iff] at herase
  obtain ⟨gs, rest, hchecked, hgs, hrest⟩ := herase
  obtain ⟨g, rfl, hg⟩ := map_eq_singleton_iff.1 hrest
  refine ⟨gs, g, hg, hchecked, ?_⟩
  have hscopes : (moduleScopes a.enums p.funcs).KnownIn (moduleScopes b.enums (p.append f).funcs) := by
    obtain ⟨hprint, hname⟩ := hb.name_fresh
    have hfresh : (moduleScopes a.enums p.funcs).resolve? f.name = none := by
      rw [moduleScopes, Header.declareAll, Scopes.resolve?_foldl_declare FuncDef.name (Header.symbol a.enums) hname,
        Scopes.resolve?_declare, if_neg (Ne.symm hprint)]
      rfl
    have happend : moduleScopes b.enums (p.append f).funcs =
        (moduleScopes a.enums p.funcs).declare f.name (Header.symbol a.enums f) := by
      simp only [Program.funcs_append, moduleScopes, Header.declareAll, foldl_append, foldl_cons, foldl_nil, henums]
    rw [happend]
    exact Scopes.knownIn_declare hfresh _
  have hmem : ∀ g ∈ gs, g ∈ b.checked := fun g hg => hchecked ▸ mem_append_left _ hg
  apply FuncDef.determined_of_checked (.refl _) hscopes (fun g hg => hb.checked g (hmem g hg)) (henums ▸ ha.checked)
  rw [hgs, ha.erase_eq]

end Analysis

namespace Lower

variable {a b : Analysis} {p : Program Unit} {f : FuncDef Unit}

/-- The module of a longer program declares one more function. -/
theorem under_declareAll (hb : b.Accepts (p.append f)) {gs : List (FuncDef Ty)} {g : FuncDef Ty}
    (hchecked : b.checked = gs ++ [g]) : (declareAll b.enums .empty gs).Under
    (declareAll b.enums .empty b.checked) := by
  have hname : g.name ∉ gs.map (·.name) := by
    have hnodup := nodup_checked_names hb
    rw [hchecked, map_append, nodup_append] at hnodup
    exact fun hmem => hnodup.2.2 _ hmem g.name (by simp) rfl
  have happend : declareAll b.enums .empty b.checked =
      (declareAll b.enums .empty gs).declare g.name (.function (g.signature b.enums)) := by
    simp only [hchecked, declareAll, foldl_append, foldl_cons, foldl_nil]
  rw [happend]
  exact Scopes.under_declare (declareAll_inner_eq_nil rfl) (resolve?_declareAll_of_not_mem hname) _

/-- In a longer program the functions of the shorter one are lowered to the same code, and then the new one. -/
theorem functions_appended (ha : a.Accepts p) (hb : b.Accepts (p.append f)) (henums : b.enums = a.enums) :
    ∃ gs g d d', (functions a.enums a.checked).Gives { scopes := declareAll a.enums .empty a.checked } gs d ∧
      (functions b.enums b.checked).Gives { scopes := declareAll b.enums .empty b.checked } (gs ++ [g]) d' ∧
      g.signature = f.signature a.enums ∧ d.formats <+: d'.formats := by
  obtain ⟨fs, new, rfl, hchecked, hbare⟩ := ha.checked_append hb henums
  have hmem : ∀ g ∈ fs ++ [new], g ∈ b.checked := fun g hg => hchecked ▸ hg
  have hold : ∀ g ∈ fs, g ∈ b.checked := fun g hg => hmem g (mem_append_left _ hg)
  have hfunctions : functions a.enums a.checked = functions b.enums fs := by
    rw [← functions_bare ha.checked, ← hbare, ← henums, functions_bare fun g hg => hb.checked g (hold g hg)]
  have hdeclared : declareAll a.enums .empty a.checked = declareAll b.enums .empty fs := by
    rw [← declareAll_bare, ← hbare, ← henums, declareAll_bare]
  obtain ⟨gs, d, hshort, -⟩ := functions_lower ha a.checked (fun _ hg => hg)
    (d := { scopes := declareAll a.enums .empty a.checked }) rfl
  rw [hfunctions, hdeclared] at hshort ⊢
  obtain ⟨t, hframed, -⟩ := (framed_functions _ _).frame hshort (under_declareAll hb hchecked)
  -- The framed run is the run of the longer program, which leaves the scopes as they were.
  obtain ⟨gs', d', hlong, -, hscopes, -⟩ := functions_lower hb fs hold
    (d := { scopes := declareAll b.enums .empty b.checked }) rfl
  obtain ⟨rfl, rfl⟩ := hlong.unique hframed
  obtain ⟨last, d', hlast, hsignatures, -, hformats, -⟩ := functions_lower hb [new]
    (fun g hg => hmem g (mem_append_right _ hg)) hscopes
  obtain ⟨g, rfl, hg⟩ := map_eq_singleton_iff.1 hsignatures
  refine ⟨gs', g, d, d', hshort, ?_, ?_, hformats⟩
  · have hall := gives_functions_append hlong hlast
    rwa [← hchecked] at hall
  · rw [hg, henums]
    rfl

end Lower

namespace Program

/-- A function at the end of a program disturbs nothing before it: the longer program has the functions of the shorter
    one with the same text, then the new function, and its formats start with those of the shorter one. -/
theorem append_keeps_code {p : Program Unit} {f : FuncDef Unit} {strict strict' : Bool}
    (hp : (p.analyze strict).hasErrors = false) (hpf : ((p.append f).analyze strict').hasErrors = false)
      (target : Target) :
    ∃ m m' g, (p.analyze strict).lower target = .ok m ∧ ((p.append f).analyze strict').lower target = .ok m' ∧
      m'.functions = m.functions ++ [g] ∧ g.signature = f.signature (p.analyze strict).enums ∧
      m'.functions.map (·.lines) = m.functions.map (·.lines) ++ [g.lines] ∧ m'.declarations = m.declarations ∧
      m.formats <+: m'.formats ∧
      m.formats.mapIdx (fun i format => format.definition i) <+: m'.formats.mapIdx fun i format =>
        format.definition i := by
  have ha := accepts_of_hasErrors hp
  have hb := accepts_of_hasErrors hpf
  have henums : ((p.append f).analyze strict').enums = (p.analyze strict).enums := by
    rw [enums_analyze, enums_analyze, enums_append]
  obtain ⟨gs, g, d, d', hshort, hlong, hsignature, hformats⟩ := Lower.functions_appended ha hb henums
  refine ⟨_, _, g, Lower.lower_of_functions ha hp hshort target, Lower.lower_of_functions hb hpf hlong target, rfl,
    hsignature, map_append, rfl, hformats, ?_⟩
  obtain ⟨more, hmore⟩ := hformats
  rw [← hmore, mapIdx_append]
  exact prefix_append _ _

/-- Prints a number and calls the function before it. -/
def shout : FuncDef Unit :=
  let here : Span := ⟨⟨9, 0⟩, ⟨9, 1⟩⟩
  let number (n : Int) : Expr Unit := .literal here (.int n)
  { span := here, name := "shout", nameSpan := here, params := [⟨here, {}, "n", .mk here "i64" []⟩], result := none,
    body := .mk here
      [.expr here (.call here (.ident here "print") [.ident here "n"]),
       .expr here (.call here (.ident here "countdown") [number 3])] }

theorem append_keeps_code_shout : (countdown.analyze true).hasErrors = false ∧
    ((countdown.append shout).analyze false).hasErrors = false ∧
    ∃ m m' g, (countdown.analyze true).lower {} = .ok m ∧ ((countdown.append shout).analyze false).lower {} = .ok m' ∧
      m'.functions = m.functions ++ [g] ∧ g.signature = shout.signature (countdown.analyze true).enums ∧
      m'.functions.map (·.lines) = m.functions.map (·.lines) ++ [g.lines] ∧ m'.declarations = m.declarations ∧
      m.formats <+: m'.formats ∧
      m.formats.mapIdx (fun i format => format.definition i) <+: m'.formats.mapIdx fun i format =>
        format.definition i :=
  have hshort : (countdown.analyze true).hasErrors = false := by decide +kernel
  have hlong : ((countdown.append shout).analyze false).hasErrors = false := by decide +kernel
  ⟨hshort, hlong, append_keeps_code hshort hlong {}⟩

end Program

end LocLang
