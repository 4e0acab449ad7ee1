import LocLang.Proofs.Analysis.Program
import LocLang.Proofs.Lowering.Body
import LocLang.Proofs.Lowering.Traces

namespace LocLang

open List

variable {μ : Type} {d : Draft}

def FuncDef.signature (enums : EnumTable) (f : FuncDef μ) : Signature :=
  (Header.symbol enums f.erase).signature

theorem FuncDef.signature_eq (enums : EnumTable) (f : FuncDef μ) :
      f.signature enums = ⟨f.name, f.params.map fun p => (enums.labelType (some p.label)).1.machine,
      (enums.labelType f.result).1.machine⟩ := by
  simp [signature, Symbol.signature, Header.symbol, erase]

def Param.lowered (enums : EnumTable) (p : Param) : IrParam :=
  ⟨parameterName p.name, (enums.labelType (some p.label)).1.machine⟩

theorem FuncDef.irParams_signature (enums : EnumTable) (f : FuncDef μ) :
    f.irParams (f.signature enums) = f.params.map (·.lowered enums) := by
  simp only [irParams, signature, Symbol.signature, Header.symbol, erase, map_map]
  rw [zipWith_map_right, zipWith_self]
  rfl

namespace Lower

variable {a : Analysis} {p : Program Unit} {t : Scopes Binding} {enums : EnumTable} {f : FuncDef Ty}
  {fs : List (FuncDef Ty)} {Γ : Typing} {d' : Draft}

/-- The functions of a program as they are declared. -/
def declareAll (enums : EnumTable) (t : Scopes Binding) (fs : List (FuncDef Ty)) : Scopes Binding :=
  fs.foldl (fun t f => t.declare f.name (.function (f.signature enums))) t

theorem function?_eq_some (ha : a.Accepts p) (hf : f ∈ a.checked) :
    a.function? f.name = some (Header.symbol a.enums f.erase) := by
  have hmem : Header.symbol a.enums f.erase ∈ a.funcs := by
    rw [ha.funcs_eq, ← ha.erase_eq, map_map]
    exact mem_cons_of_mem _ (mem_map_of_mem hf)
  exact find?_of_nodup_key (·.name) ha.names hmem

theorem signatures_gives (ha : a.Accepts p) (fs : List (FuncDef Ty)) (hfs : ∀ f ∈ fs, f ∈ a.checked) :
    (signatures a fs).Gives d () { d with scopes := declareAll a.enums d.scopes fs } := by
  induction fs generalizing d with
  | nil => exact gives_pure.2 ⟨rfl, rfl⟩
  | cons f _ ih =>
    have hlength : ¬(Header.symbol a.enums f.erase).params.length < f.params.length := by
      simp [Header.symbol, FuncDef.erase]
    rw [signatures, function?_eq_some ha (hfs f mem_cons_self)]
    dsimp only
    rw [if_neg hlength]
    have hdeclare : (declare f.name (.function (f.signature a.enums))).Gives d () _ := gives_declare.2 rfl
    exact hdeclare.bind (ih fun g hg => hfs g (mem_cons_of_mem _ hg))

/-- Functions that the analysis declares are declared in code. -/
theorem realized_declareAll {s : Scopes Symbol} (hnames : ∀ f ∈ fs, f.name ≠ printName)
    (hfunctions : ∀ f ∈ fs, f.signature enums ∈ Γ.functions) (h : s.Realized Γ t) :
    (Header.declareAll enums s (fs.map (·.erase))).Realized Γ (declareAll enums t fs) := by
  induction fs generalizing s t with
  | nil => exact h
  | cons f _ ih =>
    refine ih (fun g hg => hnames g (mem_cons_of_mem _ hg)) (fun g hg => hfunctions g (mem_cons_of_mem _ hg))
      (h.declare (fun hname => absurd hname (hnames f mem_cons_self)) ?_)
    exact ⟨rfl, rfl, hfunctions f mem_cons_self⟩

theorem realized_builtin (Γ : Typing) : (Scopes.empty.declare printFunction.name printFunction).Realized Γ .empty where
  builtin symbol hfinds _ := by
    rw [Scopes.finds_declare] at hfinds
    split at hfinds
    · exact hfinds
    · obtain ⟨entry, hentry, -⟩ := hfinds
      cases hentry
  bound name symbol hfinds hvalue := by
    rw [Scopes.finds_declare] at hfinds
    split at hfinds
    · rename_i hname
      rw [hfinds] at hvalue
      cases hvalue hname.symm
    · obtain ⟨entry, hentry, -⟩ := hfinds
      cases hentry

theorem name_ne_print (ha : a.Accepts p) (hf : f ∈ a.checked) : f.name ≠ printName := by
  intro hname
  have hnodup := ha.names
  rw [ha.funcs_eq, ← ha.erase_eq, map_cons, nodup_cons] at hnodup
  refine hnodup.1 (mem_map.2 ⟨Header.symbol a.enums f.erase, ?_, hname⟩)
  rw [map_map]
  exact mem_map_of_mem hf

theorem realized_module (ha : a.Accepts p) (hΓ : Γ.functions = a.checked.map (·.signature a.enums)) :
    (Analysis.moduleScopes a.enums p.funcs).Realized Γ (declareAll a.enums .empty a.checked) := by
  rw [Analysis.moduleScopes, ← ha.erase_eq]
  refine realized_declareAll (fun f hf => name_ne_print ha hf) (fun f hf => ?_) (realized_builtin Γ)
  rw [hΓ]
  exact mem_map_of_mem hf

theorem resolve?_declareAll_of_not_mem {name : String} (hname : name ∉ fs.map (·.name)) :
    (declareAll enums t fs).resolve? name = t.resolve? name :=
  Scopes.resolve?_foldl_declare FuncDef.name (fun f => Binding.function (f.signature enums)) hname

/-- A function of the module is found by its name. -/
theorem finds_declareAll (hnodup : (fs.map (·.name)).Nodup) (hf : f ∈ fs) :
    (declareAll enums t fs).Finds f.name (.function (f.signature enums)) := by
  induction fs generalizing t with
  | nil => cases hf
  | cons _ _ ih =>
    rw [map_cons, nodup_cons] at hnodup
    rcases mem_cons.1 hf with rfl | hf
    · refine ⟨⟨f.name, t.depth, .function (f.signature enums)⟩, ?_, rfl⟩
      exact (resolve?_declareAll_of_not_mem hnodup.1).trans (by rw [Scopes.resolve?_declare, if_pos rfl])
    · exact ih hnodup.2 hf

theorem declareAll_inner_eq_nil (h : t.inner = []) : (declareAll enums t fs).inner = [] := by
  induction fs generalizing t with
  | nil => exact h
  | cons _ _ ih => exact ih (by simp [Scopes.declare, h])

theorem nodup_checked_names (ha : a.Accepts p) : (a.checked.map (·.name)).Nodup := by
  have hnodup := ha.names
  rw [ha.funcs_eq, ← ha.erase_eq, map_cons, nodup_cons, map_map, map_map] at hnodup
  exact hnodup.2

/-- The scopes with parameters declared in the innermost one. -/
def declareParameters (t : Scopes Binding) (params : List (String × IrParam)) : Scopes Binding :=
  params.foldl (fun t q => t.declare q.1 (.value (.param q.2.name q.2.type))) t

/-- The draft that the body of a function is lowered from: an open block and nothing else, with the parameters
    declared. -/
def start (d : Draft) (params : List (String × IrParam)) : Draft where
  scopes := declareParameters d.scopes.push params
  formats := d.formats
  labels := d.labels
  current := some { label := .entry }

theorem gives_begin {u : Unit} : begin.Gives d u d' ↔
      d' = { d with registers := 0, slots := [], closed := [], current := some { label := .entry } } :=
  (gives_of_run_eq rfl).trans (by simp)

theorem gives_parameters {params : List (String × IrParam)} {u : Unit} :
    (parameters params).Gives d u d' ↔ d' = { d with scopes := declareParameters d.scopes params } := by
  induction params generalizing d with
  | nil => simp [parameters, declareParameters]
  | cons _ _ ih =>
    simp only [parameters, gives_bind, gives_declare, ih, declareParameters, foldl_cons]
    constructor
    · rintro ⟨_, d1, rfl, rfl⟩
      rfl
    · rintro rfl
      exact ⟨(), _, rfl, rfl⟩

/-- Lowering a function is lowering its body from the start and closing what is open. -/
theorem gives_function {g : IrFunction} : (function enums f).Gives d g d' ↔
      ∃ s d1 d2, d.scopes.Finds f.name (.function s) ∧
        (block ⟨enums, s.result⟩ f.body).Gives (start d ((f.params.map (·.name)).zip (f.irParams s))) () d1 ∧
        (terminateIfOpen (if s.result = .void then .retVoid else .unreachable)).Gives d1 () d2 ∧
        g = ⟨f.name, s.result, f.irParams s, d2.finished⟩ ∧ d' = { d2 with scopes := d2.scopes.leave } := by
  have hmodify {d d' : Draft} {u : Unit} :
      (modify fun d => { d with scopes := d.scopes.exitFunction } : Lower Unit).Gives d u d' ↔
        d' = { d with scopes := d.scopes.leave } :=
    (gives_of_run_eq rfl).trans (by simp)
  have hget {d d' e : Draft} : (get : Lower Draft).Gives d e d' ↔ e = d ∧ d' = d := gives_of_run_eq rfl
  simp only [function, gives_bind, gives_callee, gives_begin, gives_pushScope, gives_parameters,
    gives_pure, hmodify, hget]
  constructor
  · rintro ⟨s, _, ⟨hfinds, rfl⟩, _, _, rfl, _, _, rfl, _, _, rfl, _, d1, hblock, _, d2, hclose, _, _, rfl, _, _,
      ⟨rfl, rfl⟩, rfl, rfl⟩
    exact ⟨s, d1, d2, hfinds, hblock, hclose, rfl, rfl⟩
  · rintro ⟨s, d1, d2, hfinds, hblock, hclose, rfl, rfl⟩
    exact ⟨s, d, ⟨hfinds, rfl⟩, (), _, rfl, (), _, rfl, (), _, rfl, (), d1, hblock, (), d2, hclose, (), _, rfl, _, _,
      ⟨rfl, rfl⟩, rfl, rfl⟩

/-- What stays the same while a function of an accepted program is lowered. -/
def functionHead (ha : a.Accepts p) (f : FuncDef Ty) : Head where
  params := f.irParams (f.signature a.enums)
  result := (a.enums.labelType f.result).1
  enums := a.enums
  functions := a.checked.map (·.signature a.enums)
  params_ne_void := by
    intro s hs type htype
    obtain ⟨g, hg, rfl⟩ := mem_map.1 hs
    obtain ⟨t, ht, rfl⟩ := mem_map.1 htype
    obtain ⟨q, hq, rfl⟩ := mem_map.1 ht
    exact Ty.machine_ne_void ((ha.checked g hg).head.nonvoid q hq)

/-- Parameters that the analysis declares are declared in code. -/
theorem realized_parameters {s : Scopes Symbol} {ps : List Param}
    (hparams : ∀ q ∈ ps, q.lowered enums ∈ Γ.params ∧ (q.lowered enums).type ≠ .void) (h : s.Realized Γ t) :
    (Param.listScopes enums s ps).Realized Γ (declareParameters t (ps.map fun q => (q.name, q.lowered enums))) := by
  induction ps generalizing s t with
  | nil => exact h
  | cons q _ ih =>
    exact ih (fun r hr => hparams r (mem_cons_of_mem _ hr))
      (h.declare (fun _ => rfl) ⟨rfl, rfl, hparams q mem_cons_self⟩)

theorem sameOutside_declareParameters (hopen : t.inner ≠ []) (params : List (String × IrParam)) :
    t.SameOutside (declareParameters t params) := by
  induction params generalizing t with
  | nil => exact .refl hopen
  | cons q _ ih =>
    have hdeclare := Scopes.sameOutside_declare hopen q.1 (.value (.param q.2.name q.2.type))
    exact hdeclare.trans (ih hdeclare.open_right)

theorem start_ready (ha : a.Accepts p) (hf : f ∈ a.checked) (hscopes : d.scopes = declareAll a.enums .empty a.checked) :
    (start d (f.params.map fun q => (q.name, q.lowered a.enums))).Ready (functionHead ha f)
      (Param.listScopes a.enums (Analysis.moduleScopes a.enums p.funcs).push f.params) where
  typed := ⟨by simp [start, Draft.insts], by simp [start], by simp [start, Draft.typing, Draft.insts],
    by simp [start, Draft.typing, Draft.insts], by simp [start], by simp [start, Draft.insts]⟩
  isOpen := rfl
  realized := by
    refine realized_parameters (fun q hq => ⟨?_, ?_⟩) (hscopes ▸ realized_module ha rfl).push
    · rw [Draft.typing, functionHead, FuncDef.irParams_signature]
      exact mem_map_of_mem hq
    · exact Ty.machine_ne_void ((ha.checked f hf).head.nonvoid q hq)

/-- A function of an accepted program is lowered to its end. -/
theorem function_lowers (ha : a.Accepts p) (hf : f ∈ a.checked)
    (hscopes : d.scopes = declareAll a.enums .empty a.checked) :
    ∃ d' : Draft, (function a.enums f).Gives d
        ⟨f.name, (f.signature a.enums).result, f.irParams (f.signature a.enums), d'.finished⟩
        { d' with scopes := d.scopes } ∧
      d'.Typed (functionHead ha f) ∧ d'.current = none ∧ d.formats <+: d'.formats ∧
      (d'.slots.map (·.name)).Nodup := by
  have hready := start_ready ha hf hscopes
  have hbody : f.body.Checked (functionHead ha f).walkEnv _ := (ha.checked f hf).body
  obtain ⟨_, d1, hblock, hd1, -⟩ := block_typed f.body hbody hready
  obtain ⟨_, d2, hclose, hd2, hclosed⟩ := terminateIfOpen_typed
    (t := if (f.signature a.enums).result = .void then .retVoid else .unreachable) hd1.typed (by
      split
      · assumption
      · trivial)
  have hleave : d2.scopes.leave = d.scopes := by
    have hsame := sameOutside_declareParameters (Scopes.push_inner_ne_nil d.scopes)
      (f.params.map fun q => (q.name, q.lowered a.enums))
    have hinner : d.scopes.inner = [] := hscopes ▸ declareAll_inner_eq_nil rfl
    rw [hd2.scopes, hd1.scopes, Scopes.leave, start, hsame.base_eq]
    exact Scopes.leave_eq_self hinner
  have hslots : (d2.slots.map (·.name)).Nodup := by
    obtain ⟨edits, -, hcourse⟩ := block_course hblock
    rw [(marks_terminateIfOpen hclose (by split <;> rfl)).2.1]
    exact hcourse.nodup_slots rfl
  refine ⟨d2, gives_function.2 ⟨f.signature a.enums, d1, d2, ?_, ?_, hclose, rfl, by rw [hleave]⟩, hd2.typed, hclosed,
    (hd1.trans hd2).le.formats, hslots⟩
  · rw [hscopes]
    exact finds_declareAll (nodup_checked_names ha) hf
  · rw [FuncDef.irParams_signature, zip_map']
    exact hblock

end Lower

namespace Draft

variable {head : Lower.Head} {d : Draft}

theorem insts_finished (hcurrent : d.current = none) (hclosed : d.closed ≠ []) :
    d.finished.flatMap (·.insts) = d.slots.map .alloca ++ d.insts := by
  cases hblocks : d.closed with
  | nil => exact absurd hblocks hclosed
  | cons => simp [finished_of_cons hblocks, insts, hblocks, hcurrent]

/-- A typed draft is finished to a typed function, whatever else is in the module. -/
theorem Typed.finished {m : IrModule} {name : String} (h : d.Typed head) (hcurrent : d.current = none)
    (hslots : (d.slots.map (·.name)).Nodup) (hformats : d.formats <+: m.formats)
    (hfunctions : m.functions.map (·.signature) = head.functions) :
    IrFunction.Typed m ⟨name, head.result.machine, head.params, d.finished⟩ := by
  by_cases hclosed : d.closed = []
  · rw [finished_of_nil hclosed]
    exact ⟨by simp [IrFunction.insts], by simp, by simp [IrFunction.typing, IrFunction.insts],
      by simp [IrFunction.typing, IrFunction.insts]⟩
  · let f : IrFunction := ⟨name, head.result.machine, head.params, d.finished⟩
    have hinsts : f.insts = d.slots.map .alloca ++ d.insts := insts_finished hcurrent hclosed
    have hregisters : (f.typing m).registers = (d.typing head).registers := by
      have halloca : (d.slots.map Inst.alloca).filterMap (·.register?) = [] := by
        simp [filterMap_map, Inst.register?]
      simp only [IrFunction.typing, hinsts, filterMap_append, halloca, nil_append, typing]
    have hslotsEq : (f.typing m).slots = d.slots := by
      have halloca : (d.slots.map Inst.alloca).filterMap (·.slot?) = d.slots := by
        simp [filterMap_map, Inst.slot?]
      have hnone : d.insts.filterMap (·.slot?) = [] := filterMap_eq_nil_iff.2 h.slot?
      simp only [IrFunction.typing, hinsts, filterMap_append, halloca, hnone, append_nil]
    have hle : (d.typing head).Le (f.typing m) :=
      ⟨rfl, fun _ hr => hregisters ▸ hr, fun _ hs => hslotsEq ▸ hs, hformats, hfunctions, rfl⟩
    refine ⟨fun i hi => ?_, fun b hb => ?_, ?_, ?_⟩
    · rw [hinsts] at hi
      rcases mem_append.1 hi with hi | hi
      · obtain ⟨slot, hslot, rfl⟩ := mem_map.1 hi
        exact h.slots slot hslot
      · exact (h.insts i hi).mono hle
    · have hterm : ∃ b' ∈ d.closed, b'.term = b.term := by
        cases hblocks : d.closed with
        | nil => exact absurd hblocks hclosed
        | cons first =>
          rw [finished_of_cons hblocks] at hb
          rcases mem_cons.1 hb with rfl | hb
          · exact ⟨first, mem_cons_self, rfl⟩
          · exact ⟨b, mem_cons_of_mem _ hb, rfl⟩
      obtain ⟨b', hb', hterm⟩ := hterm
      exact hterm ▸ (h.terms b' hb').mono hle
    · rw [hregisters]
      exact h.registers
    · rw [hslotsEq]
      exact hslots

end Draft

namespace Lower

variable {a : Analysis} {p : Program Unit}

/-- The functions of an accepted program are lowered in order, each to typed code. -/
theorem functions_lower (ha : a.Accepts p) (fs : List (FuncDef Ty)) (hfs : ∀ f ∈ fs, f ∈ a.checked)
    (hscopes : d.scopes = declareAll a.enums .empty a.checked) :
    ∃ gs d', (functions a.enums fs).Gives d gs d' ∧ gs.map (·.signature) = fs.map (·.signature a.enums) ∧
      d'.scopes = d.scopes ∧ d.formats <+: d'.formats ∧
      ∀ m : IrModule, d'.formats <+: m.formats →
        m.functions.map (·.signature) = a.checked.map (·.signature a.enums) → ∀ g ∈ gs, g.Typed m := by
  induction fs generalizing d with
  | nil => exact ⟨[], d, gives_pure.2 ⟨rfl, rfl⟩, rfl, rfl, prefix_rfl, by simp⟩
  | cons f _ ih =>
    obtain ⟨d1, hfunction, htyped, hclosed, hformats, hslots⟩ := function_lowers ha (hfs f mem_cons_self) hscopes
    obtain ⟨gs, d2, hrest, hsignatures, hscopes', hformats', hgs⟩ := ih (fun g hg => hfs g (mem_cons_of_mem _ hg))
      (d := { d1 with scopes := d.scopes }) hscopes
    refine ⟨_, d2, hfunction.bind (hrest.bind (gives_pure.2 ⟨rfl, rfl⟩)), ?_, hscopes', hformats.trans hformats', ?_⟩
    · rw [map_cons, map_cons, hsignatures, IrFunction.signature, FuncDef.irParams_signature]
      simp [FuncDef.signature_eq, Param.lowered]
    · intro m hm hfunctions g hg
      rcases mem_cons.1 hg with rfl | hg
      · exact htyped.finished hclosed hslots (hformats'.trans hm) hfunctions
      · exact hgs m hm hfunctions g hg

/-- The module of an accepted program has the code of its functions, each lowered where all of them are declared. -/
theorem lower_of_functions (ha : a.Accepts p) (herrors : a.hasErrors = false) {gs : List IrFunction}
    (h : (functions a.enums a.checked).Gives { scopes := declareAll a.enums .empty a.checked } gs d) (target : Target) :
    a.lower target = .ok ⟨target, d.formats, Declaration.runtime, gs⟩ := by
  have hsignatures := signatures_gives ha a.checked (fun f hf => hf) (d := { scopes := .empty })
  have hprogram : (program a).Gives { scopes := .empty } gs d := hsignatures.bind h
  rw [Analysis.lower, herrors]
  rw [Gives] at hprogram
  simp only [hprogram]
  rfl

/-- An accepted program is lowered to its end, and its code is typed. -/
theorem program_lowers (ha : a.Accepts p) (herrors : a.hasErrors = false) (target : Target) :
    ∃ m, a.lower target = .ok m ∧ m.Typed ∧ m.functions.map (·.signature) = a.checked.map (·.signature a.enums) := by
  obtain ⟨gs, d, hfunctions, hgs, -, -, htyped⟩ := functions_lower ha a.checked (fun f hf => hf)
    (d := { scopes := declareAll a.enums .empty a.checked }) rfl
  refine ⟨_, lower_of_functions ha herrors hfunctions target, ⟨htyped _ prefix_rfl hgs, ?_⟩, hgs⟩
  have hnames := congrArg (map (·.name)) hgs
  rw [map_map, map_map] at hnames
  exact (show gs.map (·.name) = a.checked.map (·.name) from hnames) ▸ nodup_checked_names ha

end Lower

namespace Program

/-- Counts down from `n` in a loop, and says by recursion over an enum whether it comes to zero. -/
def countdown : Program Unit :=
  let here : Span := ⟨.origin, .origin⟩
  let label (name : String) : TypeLabel := .mk here name []
  let name (name : String) : Expr Unit := .ident here name
  let number (n : Int) : Expr Unit := .literal here (.int n)
  let loop : Block Unit := .mk here
    [.expr here (.call here (name "print") [name "i"]),
     .expr here (.assign here (name "i") (.binary here .sub (name "i") (number 1)))]
  let again : Expr Unit := .call here (name "countdown") [.binary here .sub (name "m") (number 1)]
  { defs :=
      [.enum ⟨here, "Answer", ["No", "Yes"]⟩, .func
        { span := here, name := "countdown", nameSpan := here, params := [⟨here, {}, "n", label "i32"⟩],
          result := some (label "Answer"),
          body := .mk here
            [.decl here {} "i" here (label "i64") (some (name "n")),
             .loop here (.binary here .gt (name "i") (number 0)) loop,
             .ret here (some (.select (.mk here () (name "n")
                [.value here (.literal here (.int 0)) (.variant here "Answer" "Yes"),
                .value here (.bind here "m") again])))] }] }

/-- Lowering completes for every program without errors. All of its functions are lowered, in order, and the type of
    every match in them is among those that the analysis gives. -/
theorem lower_completes (p : Program Unit) (strict : Bool) (target : Target)
    (h : (p.analyze strict).hasErrors = false) :
    (∃ m, (p.analyze strict).lower target = .ok m ∧ m.functions.map (·.name) = p.funcs.map (·.name)) ∧
      (p.analyze strict).checked.map (·.erase) = p.funcs ∧
      ∀ f ∈ (p.analyze strict).checked, ∀ m ∈ f.body.matches, (m.span, m.note) ∈ (p.analyze strict).matchTypes := by
  have ha := accepts_of_hasErrors h
  obtain ⟨m, hlower, -, hsignatures⟩ := Lower.program_lowers ha h target
  refine ⟨⟨m, hlower, ?_⟩, ha.erase_eq, ha.recorded⟩
  have hnames := congrArg (map (·.name)) hsignatures
  rw [map_map, map_map] at hnames
  rw [← ha.erase_eq, map_map]
  exact hnames

theorem lower_completes_countdown : (countdown.analyze true).hasErrors = false ∧
      ∃ m, (countdown.analyze true).lower {} = .ok m ∧ m.functions.map (·.name) = ["countdown"] :=
  ⟨rfl, (lower_completes countdown true {} rfl).1⟩

/-- The code of every program without errors is typed. -/
theorem lower_typed (p : Program Unit) (strict : Bool) (target : Target)
    (h : (p.analyze strict).hasErrors = false) : ∃ m, (p.analyze strict).lower target = .ok m ∧ m.Typed := by
  obtain ⟨m, hlower, htyped, -⟩ := Lower.program_lowers (accepts_of_hasErrors h) h target
  exact ⟨m, hlower, htyped⟩

theorem lower_typed_countdown : (countdown.analyze false).hasErrors = false ∧
      ∃ m, (countdown.analyze false).lower {} = .ok m ∧ m.Typed :=
  ⟨rfl, lower_typed countdown false {} rfl⟩

end Program

end LocLang
