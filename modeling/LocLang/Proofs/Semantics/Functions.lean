import LocLang.Proofs.Lowering.Jumps
import LocLang.Proofs.Semantics.Simulation

namespace LocLang

open Lower List

variable {ps : List Param} {xs : List Value}

theorem lookup_of_nodup_keys {α : Type} {l : List (String × α)} (hnodup : (l.map (·.1)).Nodup) {key : String} {a : α}
    (h : (key, a) ∈ l) : l.lookup key = some a := by
  induction l with
  | nil => cases h
  | cons entry _ ih =>
    rw [map_cons, nodup_cons] at hnodup
    rcases mem_cons.1 h with rfl | h
    · simp
    · have hne : key ≠ entry.1 := fun heq => hnodup.1 (heq ▸ mem_map_of_mem h)
      rw [lookup_cons, beq_false_of_ne hne]
      exact ih hnodup.2 h

/-- The machine makes slots one after another. -/
theorem Machine.reaches_allocated {platform : Platform} (slots : List Slot) (rest : List Inst) {m : Machine}
    (h : m.top.insts = slots.map .alloca ++ rest) :
    m.Reaches platform fun m' => m'.callers = m.callers ∧ m'.output = m.output ∧ m'.top.code = m.top.code ∧
      m'.top.args = m.top.args ∧ m'.top.insts = rest ∧ m'.top.term = m.top.term ∧
      (∀ slot ∈ slots, m'.top.memory slot.name ≠ none) ∧
      ∀ name, m.top.memory name ≠ none → m'.top.memory name ≠ none := by
  induction slots generalizing m with
  | nil => exact .refl ⟨rfl, rfl, rfl, rfl, h, rfl, by simp, fun _ hname => hname⟩
  | cons slot slots ih =>
    have hmemory (name : SlotName) (hname : name = slot.name ∨ m.top.memory name ≠ none) :
        ((m.skip (slots.map .alloca ++ rest)).top.allocate slot.name).memory name ≠ none := by
      show (if name = slot.name then some none else m.top.memory name) ≠ none
      split
      · exact Option.some_ne_none _
      · exact hname.resolve_left ‹_›
    refine .of_step (step_of_insts h) ((ih rfl).mono ?_)
    rintro m' ⟨hcallers, houtput, hcode, hargs, hinsts, hterm, hslots, hkept⟩
    refine ⟨hcallers, houtput, hcode, hargs, hinsts, hterm, fun other hother => ?_, fun name hname => ?_⟩
    · rcases mem_cons.1 hother with rfl | hother
      · exact hkept _ (hmemory _ (.inl rfl))
      · exact hslots other hother
    · exact hkept _ (hmemory _ (.inr hname))

theorem Eval.exists_value_of_mem_parameters {enums : EnumTable} {q : String × Local} (h : q ∈ parameters enums ps xs) :
    ∃ x, q.2 = .value x := by
  rw [parameters, mem_reverse] at h
  induction ps generalizing xs with
  | nil => cases h
  | cons _ _ ih =>
    cases xs with
    | nil => cases h
    | cons =>
      rcases mem_cons.1 h with rfl | h
      · exact ⟨_, rfl⟩
      · exact ih h

/-- Names of values have no cells. -/
theorem Locals.links_eq_nil {locals : Locals} (h : ∀ p ∈ locals, ∃ x, p.2 = .value x) (frame : Scope.Frame Binding) :
    locals.links frame = [] := by
  refine filterMap_eq_nil_iff.2 fun q hq => ?_
  obtain ⟨x, hx⟩ := h q.1 (of_mem_zip hq).1
  obtain ⟨⟨name, l⟩, entry⟩ := q
  obtain rfl : l = .value x := hx
  rfl

/-- Parameters mean the same in both runs. -/
theorem Locals.Agree.parameters {enums : EnumTable} {top : Activation} {cells : List Value} {registers slots : Nat}
    (hlength : ps.length = xs.length) (hargs : ∀ q ∈ ps.zip xs, top.args.lookup (parameterName q.1.name) =
      some (q.2.convert (enums.labelType (some q.1.label)).1).word)
    (htypes : ∀ p ∈ ps, (enums.labelType (some p.label)).1.isInteger) {locals : Locals} {t : Scopes Binding}
      (hopen : t.inner ≠ [])
    (h : Agree cells registers slots top locals t.inner.flatten) :
    Agree cells registers slots top (Eval.parameters enums ps xs ++ locals)
      (declareParameters t (ps.map fun q => (q.name, q.lowered enums))).inner.flatten := by
  induction ps generalizing xs locals t with
  | nil => exact h
  | cons p ps ih =>
    obtain ⟨x, xs, rfl⟩ := exists_cons_of_length_eq_add_one hlength.symm
    have hreverse : Eval.parameters enums (p :: ps) (x :: xs) ++ locals = Eval.parameters enums ps xs ++
        (p.name, .value (x.convert (enums.labelType (some p.label)).1)) :: locals := by
      simp [Eval.parameters]
    rw [hreverse]
    refine ih (Nat.succ_inj.1 hlength) (fun q hq => hargs q (mem_cons_of_mem _ hq))
      (fun q hq => htypes q (mem_cons_of_mem _ hq)) (Scopes.sameOutside_declare hopen _ _).open_right ?_
    rw [Scopes.flatten_declare hopen]
    refine .cons ⟨(Value.machine_ofInt (htypes p mem_cons_self)).symm, ?_⟩ h
    exact hargs (p, x) mem_cons_self

/-- The words of arguments with the names of their parameters. -/
theorem Fragment.zip_argumentWords (c : Fragment) (ps : List Param) (xs : List Value) :
    (ps.map fun p => parameterName p.name).zip (c.argumentWords ps xs) =
      (ps.zip xs).map fun q => (parameterName q.1.name, (q.2.convert (c.enums.labelType (some q.1.label)).1).word) := by
  induction ps generalizing xs with
  | nil => rfl
  | cons _ _ ih =>
    cases xs with
    | nil => rfl
    | cons _ xs => exact congrArg _ (ih xs)

theorem Fragment.length_argumentWords (c : Fragment) (h : ps.length = xs.length) :
    (c.argumentWords ps xs).length = ps.length := by
  simp [argumentWords, h]

/-- What is declared in a module is its functions. -/
theorem Lower.mem_base_declareAll {enums : EnumTable} {t : Scopes Binding} {fs : List (FuncDef Ty)}
    (hinner : t.inner = []) {entry : Scope.Entry Binding} (h : entry ∈ (declareAll enums t fs).base) :
    entry ∈ t.base ∨ ∃ f ∈ fs, entry.name = f.name ∧ entry.value = .function (f.signature enums) := by
  induction fs generalizing t with
  | nil => exact .inl h
  | cons f _ ih =>
    have hdeclare : (t.declare f.name (.function (f.signature enums))).base =
        ⟨f.name, t.depth, .function (f.signature enums)⟩ :: t.base := by
      obtain ⟨inner, base⟩ := t
      obtain rfl : inner = [] := hinner
      rfl
    rcases ih (t := t.declare f.name (.function (f.signature enums))) (by simp [Scopes.declare, hinner]) h with h | h
    · rw [hdeclare] at h
      rcases mem_cons.1 h with rfl | h
      · exact .inr ⟨f, mem_cons_self, rfl, rfl⟩
      · exact .inl h
    · obtain ⟨g, hg, hentry⟩ := h
      exact .inr ⟨g, mem_cons_of_mem _ hg, hentry⟩

theorem Site.exists_finished (site : Site) : ∃ first others, site.draft.finished = first :: others := by
  have hstarts := site.starts
  rw [site.blockLabels_eq] at hstarts
  cases hclosed : site.draft.closed with
  | nil =>
    rw [hclosed] at hstarts
    cases hstarts
  | cons => exact ⟨_, _, Draft.finished_of_cons hclosed⟩

/-- At the start of a function the machine makes the slots, and then comes to the body. -/
theorem Site.reaches_body {platform : Platform} (site : Site) (c : Fragment) {d : Draft} {first : IrBlock}
    {others : List IrBlock}
    (hblocks : site.draft.finished = first :: others) (hlength : ps.length = xs.length)
    (htypes : ∀ p ∈ ps, (c.enums.labelType (some p.label)).1.isInteger)
      (hnames : (ps.map fun p => parameterName p.name).Nodup)
    (hbase : d.scopes.base = site.base) (hinner : d.scopes.inner = []) (callers : List (Option Nat × Activation))
    (output : List String) : Machine.Reaches platform
      ⟨.enter site.draft.finished ((ps.map fun p => parameterName p.name).zip (c.argumentWords ps xs)) first, callers,
        output⟩
      fun m => m.callers = callers ∧ site.State (Eval.parameters c.enums ps xs) ⟨[], output⟩
        (start d (ps.map fun q => (q.name, q.lowered c.enums))) m := by
  have hstarts := site.starts
  rw [site.blockLabels_eq] at hstarts
  cases hclosed : site.draft.closed with
  | nil =>
    rw [hclosed] at hstarts
    cases hstarts
  | cons b =>
    rw [hclosed] at hstarts
    have hlabel : b.label = .entry := by simpa using hstarts
    have hfirst : first = { b with insts := site.draft.slots.map .alloca ++ b.insts } := by
      rw [Draft.finished_of_cons hclosed] at hblocks
      exact (cons.inj hblocks).1.symm
    refine (Machine.reaches_allocated site.draft.slots b.insts (congrArg IrBlock.insts hfirst)).mono ?_
    rintro m ⟨hcallers, houtput, hcode, hargs, hinsts, hterm, hslots, -⟩
    have hsame := sameOutside_declareParameters (Scopes.push_inner_ne_nil d.scopes)
      (ps.map fun q => (q.name, q.lowered c.enums))
    refine ⟨hcallers, ⟨⟨_, b, rfl, by simp [hclosed], hlabel, hinsts.symm, ?_⟩, ?_⟩⟩
    · rw [hterm]
      exact (congrArg IrBlock.term hfirst).symm
    · exact
        { code := hcode
          allocated := hslots
          output := houtput
          isOpen := hsame.open_right
          base := hsame.base_eq.trans hbase
          names := by
            rw [← append_nil (Eval.parameters c.enums ps xs)]
            refine Locals.Agree.parameters hlength (fun q hq => ?_) htypes (Scopes.push_inner_ne_nil _) ?_
            · rw [hargs]
              refine lookup_of_nodup_keys ?_ ?_
              · show (((ps.map fun p => parameterName p.name).zip (c.argumentWords ps xs)).map (·.1)).Nodup
                rw [map_fst_zip (by simp [c.length_argumentWords hlength])]
                exact hnames
              · show _ ∈ (ps.map fun p => parameterName p.name).zip (c.argumentWords ps xs)
                rw [c.zip_argumentWords]
                exact mem_map_of_mem hq
            · rw [Scopes.push, hinner]
              exact .nil
          paired := by
            have hvalues (q : String × Local) (hq : q ∈ Eval.parameters c.enums ps xs) : ∃ x, q.2 = .value x :=
              Eval.exists_value_of_mem_parameters hq
            rw [Locals.links_eq_nil hvalues]
            simp }

/-- Whether the functions that a machine can call are the code of the given ones. -/
structure Platform.Implements (platform : Platform) (enums : EnumTable) (functions : List (FuncDef Ty)) : Prop where
  nodup : (functions.map (·.name)).Nodup
  discrete : ∀ f ∈ functions, f.Discrete enums functions
  code : ∀ f ∈ functions, ∃ g d d', platform.functions.find? (·.name = f.name) = some g ∧
    (function enums f).Gives d g d' ∧ d.scopes = declareAll enums .empty functions

namespace Platform.Implements

variable {platform : Platform} {enums : EnumTable} {functions : List (FuncDef Ty)} {f : FuncDef Ty} {args : List Value}

/-- The machine enters a function: its slots exist, its parameters have the values of the arguments, and its body comes
    next. -/
theorem enter (h : platform.Implements enums functions) (hf : f ∈ functions) (hlength : f.params.length = args.length)
    (result : Ty) : ∃ (site : Site) (d d1 : Draft) (top : Activation),
      Machine.activate platform f.name (Fragment.argumentWords ⟨enums, functions, result⟩ f.params args) = .ok top ∧
      (∀ entry ∈ site.base, ∃ g, functions.find? (·.name = entry.name) = some g ∧
        entry.value = .function (g.signature enums)) ∧
      (block ⟨enums, (enums.labelType f.result).1.machine⟩ f.body).Gives d () d1 ∧
      (terminateIfOpen (if (enums.labelType f.result).1.machine = .void then .retVoid else .unreachable)).Gives
        d1 () site.draft ∧
      ∀ (callers : List (Option Nat × Activation)) (output : List String),
        Machine.Reaches platform ⟨top, callers, output⟩ fun m => m.callers = callers ∧
          site.State (Eval.parameters enums f.params args) ⟨[], output⟩ d m := by
  obtain ⟨g, d, d', hfind, hgives, hscopes⟩ := h.code f hf
  obtain ⟨s, d1, d2, hfinds, hblock, hclose, rfl, -⟩ := gives_function.1 hgives
  rw [hscopes] at hfinds
  obtain rfl : s = f.signature enums := by
    have heq := hfinds.unique (finds_declareAll h.nodup hf)
    cases heq
    rfl
  have hbase (entry : Scope.Entry Binding) (hentry : entry ∈ d.scopes.base) :
      ∃ g ∈ functions, entry.name = g.name ∧ entry.value = .function (g.signature enums) := by
    rw [hscopes] at hentry
    exact (mem_base_declareAll rfl hentry).resolve_left (by simp [Scopes.empty])
  obtain ⟨hnodup, hstarts⟩ := labels_of_body hblock hclose
  rw [FuncDef.irParams_signature, zip_map'] at hblock
  have honly (entry : Scope.Entry Binding) (hentry : entry ∈ d.scopes.base) : ∃ s, entry.value = .function s := by
    obtain ⟨g, -, -, hvalue⟩ := hbase entry hentry
    exact ⟨_, hvalue⟩
  obtain ⟨site, rfl, hsite⟩ : ∃ site : Site, site.draft = d2 ∧ d.scopes.base = site.base :=
    ⟨⟨d2, current_of_terminateIfOpen hclose, hstarts, hnodup, d.scopes.base, honly⟩, rfl, rfl⟩
  obtain ⟨first, others, hblocks⟩ := site.exists_finished
  have hdiscrete := h.discrete f hf
  refine ⟨site, _, d1, _, ?_, ?_, hblock, hclose, fun callers output =>
    site.reaches_body ⟨enums, functions, result⟩ hblocks hlength hdiscrete.params hdiscrete.names
      hsite ?_ callers output⟩
  · have hparams : (f.irParams (f.signature enums)).map (·.name) = f.params.map fun p => parameterName p.name := by
      rw [FuncDef.irParams_signature, map_map]
      rfl
    have hcount : (f.irParams (f.signature enums)).length =
        (Fragment.argumentWords ⟨enums, functions, result⟩ f.params args).length := by
      rw [Fragment.length_argumentWords _ hlength, FuncDef.irParams_signature, length_map]
    simp only [Machine.activate, hfind, hblocks, if_pos hcount, hparams]
  · intro entry hentry
    obtain ⟨g, hg, hname, hvalue⟩ := hbase entry (hsite ▸ hentry)
    exact ⟨g, hname ▸ find?_of_nodup_key (·.name) h.nodup hg, hvalue⟩
  · exact hscopes ▸ declareAll_inner_eq_nil rfl

/-- A function does what its body says, if the functions that it calls do what they say. -/
theorem performs (h : platform.Implements enums functions) (hf : f ∈ functions)
    (hlength : f.params.length = args.length) {fuel : Nat} {result : Ty}
    (hcalls : Fragment.CallsAgree ⟨enums, functions, (enums.labelType f.result).1⟩ platform fuel) :
    ∃ top, Machine.activate platform f.name (Fragment.argumentWords ⟨enums, functions, result⟩ f.params args) = .ok
      top ∧
      ∀ (callers : List (Option Nat × Activation)) (w : World),
        Machine.Performs platform fuel ⟨top, callers, w.output⟩ (Eval.call enums functions (fuel + 1) f.name args) w
          fun value w' m' => w'.cells = w.cells ∧
            Machine.Returns platform (enums.labelType f.result).1 value w' ⟨top, callers, w.output⟩ m' := by
  obtain ⟨site, d, d1, top, hactivate, hbase, hblock, hclose, hreaches⟩ := h.enter hf hlength result
  have hdiscrete := h.discrete f hf
  have hserves : site.Serves platform ⟨enums, functions, (enums.labelType f.result).1⟩ fuel :=
    ⟨hbase, h.discrete, hcalls⟩
  have hcovers1 := site.covers_draft.of_grows ((Grows.terminateIfOpen _).draft hclose)
  have hfind : functions.find? (·.name = f.name) = some f := find?_of_nodup_key (·.name) h.nodup hf
  refine ⟨top, hactivate, fun callers w => .of_reaches (hreaches callers w.output) fun m hm => ?_⟩
  rw [Eval.call_succ hfind hlength]
  refine ((Site.block_executes ⟨_, hserves⟩ f.body hdiscrete.body).performs hblock hcovers1 hm.2).bind
    fun flow w' m' hm' => ?_
  refine .of_run_bind rfl ?_
  cases flow with
  | ret => exact .pure ⟨rfl, hm'.callers.trans hm.1, hm'.output, hm'.insts, hm'.term⟩
  | next =>
    obtain ⟨-, hstate, hfollows⟩ := hm'
    obtain ⟨b, block, hb, -⟩ := hstate.here
    have hterminate := (gives_terminateIfOpen.1 hclose).resolve_right (by simp [hb])
    obtain ⟨hinsts, hterm⟩ := hstate.here.terminate hterminate site.covers_draft
    by_cases hvoid : (enums.labelType f.result).1 = .void
    · have hmachine : (enums.labelType f.result).1.machine = .void := congrArg Ty.machine hvoid
      rw [if_pos hmachine] at hterm
      simp only [if_pos hvoid]
      exact .pure ⟨rfl, hfollows.callers.trans hm.1, hstate.agrees.output, hinsts, hvoid, hterm⟩
    · have hmachine : (enums.labelType f.result).1.machine ≠ .void :=
        Ty.machine_ne_void_of_isInteger (hdiscrete.result.resolve_right hvoid)
      rw [if_neg hmachine] at hterm
      simp only [if_neg hvoid]
      refine .undefined ?_ hstate.agrees.output
      rw [Machine.step_of_term hinsts, hterm]
      rfl

/-- Every call does what the function says, with any fuel. -/
theorem callsAgree (h : platform.Implements enums functions) (fuel : Nat) (result : Ty) :
    Fragment.CallsAgree ⟨enums, functions, result⟩ platform fuel := by
  induction fuel generalizing result with
  | zero =>
    intro f hf args hlength
    obtain ⟨site, d, d1, top, hactivate, -⟩ := h.enter hf hlength result
    exact ⟨top, hactivate, fun callers w => .timeout⟩
  | succ _ ih => exact fun f hf args hlength => h.performs hf hlength (ih _)

end Platform.Implements

end LocLang
