import LocLang.Proofs.Analysis.Acceptance
import LocLang.Proofs.Tree.Rules

namespace LocLang

open Header List

variable {μ : Type} {enums : EnumTable} {label : Option TypeLabel} {p : Program Unit} {fs : List (FuncDef Unit)}
  {h : Header}
  {strict : Bool} {f : FuncDef Unit} {params : List Param}

def FuncDef.erase (f : FuncDef μ) : FuncDef Unit :=
  { f with body := f.body.map fun _ => () }

/-- Whether the labels in the head of a function denote types that they may denote there. -/
structure FuncDef.HeadChecked (enums : EnumTable) (f : FuncDef μ) : Prop where
  result : (enums.labelType f.result).1 ≠ .unknown
  known : ∀ p ∈ f.params, (enums.labelType (some p.label)).1 ≠ .unknown
  nonvoid : ∀ p ∈ f.params, (enums.labelType (some p.label)).1 ≠ .void

def EnumTable.parameter (enums : EnumTable) (p : Param) : Symbol where
  name := p.name
  type := (enums.labelType (some p.label)).1
  typeName := p.label.text
  enumName := (enums.labelType (some p.label)).2
  kind := .value
  storage := .register
  modes := p.modes

/-- The scopes with parameters declared in the innermost one. -/
def Param.listScopes (enums : EnumTable) (s : Scopes Symbol) (params : List Param) : Scopes Symbol :=
  params.foldl (fun s p => s.define (enums.parameter p) p.span) s

/-- Whether a function is in order in the given module. -/
structure FuncDef.Checked (enums : EnumTable) (scopes : Scopes Symbol) (f : FuncDef Ty) : Prop where
  head : f.HeadChecked enums
  params : (f.params.map (·.name)).Nodup
  body : f.body.Checked ⟨enums, (enums.labelType f.result).1⟩ (Param.listScopes enums scopes.push f.params)

theorem Param.sameOutside_listScopes {s : Scopes Symbol} (hopen : s.inner ≠ []) (enums : EnumTable)
    (params : List Param) : s.SameOutside (Param.listScopes enums s params) := by
  induction params generalizing s with
  | nil => exact .refl hopen
  | cons param _ ih =>
    have hparam := Scopes.sameOutside_declare hopen param.name
      { enums.parameter param with depth := s.depth, span := some param.span }
    exact hparam.trans (ih hparam.open_right)

theorem EnumTable.isFatal_of_labelFinding? {finding : Finding} (h : enums.labelFinding? label = some finding) :
    finding.issue.IsFatal := by
  cases label with
  | none => cases h
  | some =>
    rw [labelFinding?] at h
    split at h
    · split at h <;> cases h <;> rfl
    · cases h

theorem EnumTable.ne_unknown_of_labelFinding? (h : enums.labelFinding? label = none) :
    (enums.labelType label).1 ≠ .unknown := by
  cases label with
  | none => simp [labelType]
  | some =>
    intro hunknown
    rw [labelFinding?, if_pos hunknown] at h
    split at h <;> cases h

namespace Header

variable {log : Log}

theorem extends_checkLabel (enums : EnumTable) (log : Log) (label : Option TypeLabel) :
    log.Extends (checkLabel enums log label) := by
  rw [checkLabel]
  split
  · exact log.extends_addFinding _ _
  · exact .refl _

theorem extends_checkParam (enums : EnumTable) (log : Log) (param : Param) :
    log.Extends (checkParam enums log param) := by
  rw [checkParam]
  split
  · exact (extends_checkLabel _ _ _).trans (Log.extends_addFinding _ _ _)
  · exact extends_checkLabel _ _ _

theorem extends_checkParams (enums : EnumTable) (log : Log) (params : List Param) :
    log.Extends (params.foldl (checkParam enums) log) := by
  induction params generalizing log with
  | nil => exact .refl _
  | cons param _ ih => exact (extends_checkParam enums log param).trans (ih _)

theorem of_checkLabel_clean (hclean : (checkLabel enums log label).Clean) : (enums.labelType label).1 ≠ .unknown := by
  rw [checkLabel] at hclean
  split at hclean
  · rename_i finding hfinding
    exact absurd (EnumTable.isFatal_of_labelFinding? hfinding) hclean.not_isFatal_of_addFinding
  · rename_i hfinding
    exact EnumTable.ne_unknown_of_labelFinding? hfinding

theorem of_checkParam_clean {param : Param} (hclean : (checkParam enums log param).Clean) :
    (enums.labelType (some param.label)).1 ≠ .unknown ∧ (enums.labelType (some param.label)).1 ≠ .void := by
  rw [checkParam] at hclean
  split at hclean
  · exact absurd rfl hclean.not_isFatal_of_addFinding
  · exact ⟨of_checkLabel_clean hclean, ‹_›⟩

theorem of_checkParams_clean (hclean : (params.foldl (checkParam enums) log).Clean) :
    ∀ p ∈ params, (enums.labelType (some p.label)).1 ≠ .unknown ∧ (enums.labelType (some p.label)).1 ≠ .void := by
  induction params generalizing log with
  | nil => simp
  | cons _ params ih =>
    intro p hp
    rcases mem_cons.1 hp with rfl | hp
    · exact of_checkParam_clean ((extends_checkParams enums _ params).clean hclean)
    · exact ih hclean p hp

theorem isFatal_of_nameIssue? {name : String} {issue : Issue} (hissue : h.nameIssue? name = some issue) :
    issue.IsFatal := by
  rw [nameIssue?] at hissue
  split at hissue
  · cases hissue
    rfl
  · split at hissue <;> cases hissue
    rfl

theorem extends_addFunc (h : Header) (f : FuncDef Unit) : h.log.Extends (h.addFunc f).log := by
  rw [addFunc]
  split
  · exact h.log.extends_addFinding _ _
  · exact ((extends_checkLabel _ _ _).trans (extends_checkParams _ _ _)).trans (Log.extends_addSymbol _ _)

theorem extends_addFuncs (h : Header) (fs : List (FuncDef Unit)) : h.log.Extends (fs.foldl addFunc h).log := by
  induction fs generalizing h with
  | nil => exact .refl _
  | cons f _ ih => exact (extends_addFunc h f).trans (ih _)

/-- The scopes of a module that declares the given functions. -/
def declareAll (enums : EnumTable) (s : Scopes Symbol) (fs : List (FuncDef Unit)) : Scopes Symbol :=
  fs.foldl (fun s f => s.declare f.name (symbol enums f)) s

theorem of_addFunc_clean (hclean : (h.addFunc f).log.Clean) :
    f.name ∉ runtimeFunctions ∧ f.name ∉ h.funcs.map (·.name) ∧ f.HeadChecked h.enums ∧
      h.addFunc f =
        { h with
          funcs := h.funcs ++ [symbol h.enums f]
          defs := h.defs ++ [(f, true)]
          scopes := h.scopes.declare f.name (symbol h.enums f)
          log := (h.addFunc f).log } := by
  cases hissue : h.nameIssue? f.name with
  | some =>
    rw [addFunc, hissue] at hclean
    exact absurd (isFatal_of_nameIssue? hissue) hclean.not_isFatal_of_addFinding
  | none =>
    have hadd : h.addFunc f =
        { h with
          funcs := h.funcs ++ [symbol h.enums f]
          defs := h.defs ++ [(f, true)]
          scopes := h.scopes.declare f.name (symbol h.enums f)
          log := (f.params.foldl (checkParam h.enums) (checkLabel h.enums h.log f.result)).addSymbol
            (symbol h.enums f) } := by
      rw [addFunc, hissue]
      rfl
    rw [hadd] at hclean ⊢
    have hparams := (Log.extends_addSymbol _ _).clean hclean
    have hlabel := (extends_checkParams _ _ _).clean hparams
    rw [nameIssue?] at hissue
    split at hissue
    · cases hissue
    · rename_i hruntime
      split at hissue
      · cases hissue
      · rename_i hnew
        refine ⟨by simpa using hruntime, by simpa using hnew, ⟨of_checkLabel_clean hlabel, ?_, ?_⟩, rfl⟩
        · exact fun p hp => (of_checkParams_clean hparams p hp).1
        · exact fun p hp => (of_checkParams_clean hparams p hp).2

theorem of_addFuncs_clean (hclean : (fs.foldl addFunc h).log.Clean) :
    (∀ f ∈ fs, f.name ∉ runtimeFunctions ∧ f.name ∉ h.funcs.map (·.name) ∧ f.HeadChecked h.enums) ∧
      (fs.map (·.name)).Nodup ∧
      fs.foldl addFunc h =
        { h with
          funcs := h.funcs ++ fs.map (symbol h.enums)
          defs := h.defs ++ fs.map (·, true)
          scopes := declareAll h.enums h.scopes fs
          log := (fs.foldl addFunc h).log } := by
  induction fs generalizing h with
  | nil => simp [declareAll]
  | cons _ fs ih =>
    rw [foldl_cons] at hclean ⊢
    obtain ⟨hruntime, hnew, hhead, hadd⟩ := of_addFunc_clean ((extends_addFuncs _ fs).clean hclean)
    obtain ⟨hrest, hnodup, heq⟩ := ih hclean
    rw [hadd] at hrest
    refine ⟨?_, ?_, ?_⟩
    · intro g hg
      rcases mem_cons.1 hg with rfl | hg
      · exact ⟨hruntime, hnew, hhead⟩
      · obtain ⟨hruntime', hnew', hhead'⟩ := hrest g hg
        refine ⟨hruntime', fun hmem => hnew' ?_, hhead'⟩
        simp only [map_append, mem_append]
        exact .inl hmem
    · rw [map_cons, nodup_cons]
      refine ⟨fun hmem => ?_, hnodup⟩
      obtain ⟨g, hg, hname⟩ := mem_map.1 hmem
      refine (hrest g hg).2.1 ?_
      simp [hname, symbol]
    · rw [heq, hadd]
      simp [declareAll]

end Header

namespace Walk

section Steps

variable {s s' : State} {u : Unit}

theorem gives_headType {resolved : Ty × Option String} :
    (headType enums true label).Gives s resolved s' ↔ resolved = enums.labelType label ∧ s' = s := by
  exact gives_pure

/-- A symbol that is no variable is the first one of its name in its scope that is none. -/
theorem storage_ne_of_define {symbol : Symbol} {span : Span} (h : (define symbol span).Gives s u s')
    (hclean : s'.log.Clean) (hregister : symbol.storage = .register) {earlier : Scope.Entry Symbol}
    (hearlier : s.scopes.declaredHere? symbol.name = some earlier) : earlier.value.storage ≠ .register := by
  intro hstorage
  have hissue : declarationIssue? s.scopes symbol = some (.duplicateSymbol symbol.name) := by
    simp [declarationIssue?, hearlier, hstorage, hregister]
  rw [define, gives_bind] at h
  obtain ⟨table, s1, htable, h⟩ := h
  obtain ⟨rfl, rfl⟩ := gives_scopes.1 htable
  rw [hissue] at h
  rw [gives_bind] at h
  obtain ⟨_, s2, hreport, h⟩ := h
  obtain rfl := gives_report.1 hreport
  obtain ⟨-, rfl⟩ := (gives_of_run_eq rfl).1 h
  exact absurd rfl ((Log.extends_addSymbol _ _).clean hclean).not_isFatal_of_addFinding

end Steps

theorem parameters_accepted {s s' : State} {u : Unit} (h : (parameters enums true params).Gives s u s')
    (hclean : s'.log.Clean) (hopen : s.scopes.inner ≠ [])
    (hregisters : ∀ name entry, s.scopes.declaredHere? name = some entry → entry.value.storage = .register) :
    s'.scopes = Param.listScopes enums s.scopes params ∧ (params.map (·.name)).Nodup ∧
      ∀ p ∈ params, s.scopes.declaredHere? p.name = none := by
  induction params generalizing s with
  | nil =>
    obtain ⟨-, rfl⟩ := gives_pure.1 h
    exact ⟨rfl, by simp, by simp⟩
  | cons param params ih =>
    rw [parameters, gives_bind] at h
    obtain ⟨resolved, s1, hresolved, h⟩ := h
    obtain ⟨rfl, rfl⟩ := gives_headType.1 hresolved
    rw [gives_bind] at h
    obtain ⟨_, s2, hdefine, h⟩ := h
    rw [gives_bind] at h
    obtain ⟨_, s3, htell, h⟩ := h
    obtain rfl := gives_tell.1 htell
    have hext := (Steps.parameters enums true params).honest.extends_of_gives h
    have hclean2 := ((Log.extends_addEvent _ _).trans hext).clean hclean
    have hscopes2 : s2.scopes = s1.scopes.define (enums.parameter param) param.span := (of_define hdefine).1
    have hnone : s1.scopes.declaredHere? param.name = none := by
      cases hearlier : s1.scopes.declaredHere? param.name with
      | none => rfl
      | some =>
        exact absurd (hregisters _ _ hearlier) (storage_ne_of_define hdefine hclean2 rfl hearlier)
    have hhere (name : String) : s2.scopes.declaredHere? name =
        if param.name = name then some ⟨param.name, s1.scopes.depth,
          { enums.parameter param with depth := s1.scopes.depth, span := some param.span }⟩
        else s1.scopes.declaredHere? name := by
      rw [hscopes2]
      exact Scopes.declaredHere?_declare _ _ _ _
    obtain ⟨hscopes, hnodup, hnew⟩ := ih h
      (by rw [hscopes2]; exact (Scopes.sameOutside_declare hopen _ _).open_right)
      (by
        intro name entry hentry
        rw [hhere] at hentry
        split at hentry
        · cases hentry
          rfl
        · exact hregisters _ _ hentry)
    refine ⟨?_, ?_, ?_⟩
    · rw [hscopes, hscopes2]
      rfl
    · rw [map_cons, nodup_cons]
      refine ⟨fun hmem => ?_, hnodup⟩
      obtain ⟨p, hp, hname⟩ := mem_map.1 hmem
      have hp := hnew p hp
      rw [hhere, if_pos hname.symm] at hp
      cases hp
    · intro p hp
      rcases mem_cons.1 hp with rfl | hp
      · exact hnone
      · have hp := hnew p hp
        rw [hhere] at hp
        split at hp
        · cases hp
        · exact hp

/-- The walk of a function opens its scope and goes on by the usual steps; nothing in it closes that scope. -/
theorem function_steps (enums : EnumTable) (f : FuncDef Unit) (declared : Bool) : ∃ inside : Walk (FuncDef Ty),
    function enums f declared = (do
      tell (.functionEntered f.name)
      push
      inside) ∧ Steps inside :=
  ⟨_, rfl, (Steps.headType _ _ _).bind fun _ => (Steps.parameters _ _ _).bind fun _ => (block_steps _ _).bind fun _ =>
    (Steps.tell _).bind fun _ => .pure _⟩

theorem function_honest (enums : EnumTable) (f : FuncDef Unit) (declared : Bool) :
    Honest (function enums f declared) := by
  obtain ⟨inside, hfunction, hsteps⟩ := function_steps enums f declared
  rw [hfunction]
  exact (Honest.tell _).bind fun _ => Honest.push.bind fun _ => hsteps.honest

theorem function_accepted {s s' : State} {f' : FuncDef Ty} (h : (function enums f true).Gives s f' s')
    (hclean : s'.log.Clean) (hhead : f.HeadChecked enums) :
    s'.scopes.leave = s.scopes.leave ∧ f'.Checked enums s.scopes ∧ f'.erase = f ∧
      s'.log.Records f'.body.matches := by
  rw [function, gives_bind] at h
  obtain ⟨_, s1, htell, h⟩ := h
  obtain rfl := gives_tell.1 htell
  rw [gives_bind] at h
  obtain ⟨_, s2, hpush, h⟩ := h
  obtain rfl := gives_push.1 hpush
  rw [gives_bind] at h
  obtain ⟨resolved, s3, hresolved, h⟩ := h
  obtain ⟨rfl, rfl⟩ := gives_headType.1 hresolved
  rw [gives_bind] at h
  obtain ⟨_, s4, hparams, h⟩ := h
  rw [gives_bind] at h
  obtain ⟨body', s5, hbody, h⟩ := h
  rw [gives_bind] at h
  obtain ⟨_, s6, htell, h⟩ := h
  obtain rfl := gives_tell.1 htell
  obtain ⟨rfl, rfl⟩ := gives_pure.1 h
  have hext6 := s5.log.extends_addEvent (.functionLeft f.name)
  have hext5 := (block_steps _ f.body).honest.extends_of_gives hbody
  have hclean5 := hext6.clean hclean
  obtain ⟨hscopes, hnodup, -⟩ := parameters_accepted hparams (hext5.clean hclean5)
    (Scopes.push_inner_ne_nil _) (by simp [Scopes.declaredHere?, Scopes.push, Scope.Frame.get?])
  obtain ⟨hscopes5, hrecords, -, hchecked, herase⟩ := (block_accepts _ f.body).of_gives hbody hclean5
  rw [hscopes] at hchecked hscopes5
  refine ⟨?_, ⟨⟨hhead.result, hhead.known, hhead.nonvoid⟩, hnodup, hchecked⟩, ?_, hrecords.mono hext6⟩
  · simp only [Scopes.leave, hscopes5]
    rw [(Param.sameOutside_listScopes (Scopes.push_inner_ne_nil _) enums f.params).base_eq]
    rfl
  · rw [FuncDef.erase, herase]

/-- A definition walked to its end leaves the module alone open. -/
theorem definition_of_gives {f' : FuncDef Ty} {declared : Bool} {s s' : State}
    (h : (function enums f declared).Gives s f' s') :
    definition enums f declared s = (some f', { s' with scopes := s'.scopes.leave }) := by
  rw [definition, h]
  simp only [Scopes.exitFunction_eq_leave]

/-- So does a definition that was given up, wherever that happened. -/
theorem definition_of_stops {declared : Bool} {s s' : State} {reason : Finding}
    (h : (function enums f declared).Stops s reason s') :
    definition enums f declared s =
      (none, { s' with scopes := s'.scopes.leave, log := s'.log.addFinding reason.issue reason.span }) := by
  rw [definition, h]
  simp only [Scopes.exitFunction_eq_leave]

theorem extends_definition (enums : EnumTable) (f : FuncDef Unit) (declared : Bool) (s : State) :
    s.log.Extends (definition enums f declared s).2.log := by
  have hhonest := function_honest enums f declared
  rcases gives_or_stops (function enums f declared) s with ⟨f', s', h⟩ | ⟨reason, s', h⟩
  · have hext := hhonest.extends_of_gives h
    rw [definition_of_gives h]
    exact hext
  · have hext := hhonest.extends_of_stops h
    rw [definition_of_stops h]
    exact hext.trans (Log.extends_addFinding _ _ _)

theorem extends_definitions (enums : EnumTable) (defs : List (FuncDef Unit × Bool)) (s : State) :
    s.log.Extends (definitions enums defs s).2.log := by
  induction defs generalizing s with
  | nil => exact .refl _
  | cons head _ ih => exact (extends_definition enums head.1 head.2 s).trans (ih _)

theorem definition_accepted {s : State} (hclean : (definition enums f true s).2.log.Clean)
    (hhead : f.HeadChecked enums) (hmodule : s.scopes.inner = []) :
    ∃ f', (definition enums f true s).1 = some f' ∧ (definition enums f true s).2.scopes = s.scopes ∧
      f'.Checked enums s.scopes ∧ f'.erase = f ∧
      (definition enums f true s).2.log.Records f'.body.matches := by
  rcases gives_or_stops (function enums f true) s with ⟨f', s', h⟩ | ⟨reason, s', h⟩
  · rw [definition_of_gives h] at hclean ⊢
    obtain ⟨hleave, hchecked, herase, hrecords⟩ := function_accepted h hclean hhead
    exact ⟨f', rfl, hleave.trans (Scopes.leave_eq_self hmodule), hchecked, herase, hrecords⟩
  · have hfatal := (function_honest enums f true).isFatal_of_stops h
    rw [definition_of_stops h] at hclean
    exact absurd hfatal hclean.not_isFatal_of_addFinding

theorem definitions_accepted {s : State} (hclean : (definitions enums (fs.map (·, true)) s).2.log.Clean)
    (hheads : ∀ f ∈ fs, f.HeadChecked enums) (hmodule : s.scopes.inner = []) :
    (definitions enums (fs.map (·, true)) s).1.map (·.erase) = fs ∧
      ∀ f' ∈ (definitions enums (fs.map (·, true)) s).1, f'.Checked enums s.scopes ∧
        (definitions enums (fs.map (·, true)) s).2.log.Records f'.body.matches := by
  induction fs generalizing s with
  | nil => simp [definitions]
  | cons f fs ih =>
    rw [map_cons, definitions] at hclean ⊢
    dsimp only at hclean ⊢
    have hext := extends_definitions enums (fs.map (·, true)) (definition enums f true s).2
    obtain ⟨f', hsome, hscopes, hchecked, herase, hrecords⟩ := definition_accepted (hext.clean hclean)
      (hheads f mem_cons_self) hmodule
    obtain ⟨herases, hrest⟩ := ih hclean (fun g hg => hheads g (mem_cons_of_mem _ hg)) (by rw [hscopes, hmodule])
    rw [hscopes] at hrest
    refine ⟨by simp [hsome, herase, herases], fun g hg => ?_⟩
    rw [hsome, Option.toList_some, singleton_append] at hg
    rcases mem_cons.1 hg with rfl | hg
    · exact ⟨hchecked, hrecords.mono hext⟩
    · exact hrest g hg

end Walk

namespace Analysis

/-- The scopes of a module with the given functions: the functions, and the built-in one. -/
def moduleScopes (enums : EnumTable) (fs : List (FuncDef Unit)) : Scopes Symbol :=
  declareAll enums (Scopes.empty.declare printFunction.name printFunction) fs

/-- What the analysis of an accepted program says. -/
structure Accepts (a : Analysis) (p : Program Unit) : Prop where
  erase_eq : a.checked.map (·.erase) = p.funcs
  funcs_eq : a.funcs = printFunction :: p.funcs.map (symbol a.enums)
  names : (a.funcs.map (·.name)).Nodup
  reserved : ∀ f ∈ p.funcs, f.name ∉ runtimeFunctions
  checked : ∀ f ∈ a.checked, f.Checked a.enums (moduleScopes a.enums p.funcs)
  recorded : ∀ f ∈ a.checked, ∀ m ∈ f.body.matches, (m.span, m.note) ∈ a.matchTypes

/-- The checked functions are those of the program. -/
theorem Accepts.obeys {a : Analysis} (ha : a.Accepts p) {rules : TreeRules} (h : p.Obeys rules) {f : FuncDef Ty}
    (hf : f ∈ a.checked) : f.Obeys rules := by
  have hmem : f.erase ∈ p.funcs := ha.erase_eq ▸ mem_map_of_mem hf
  have herase := h _ hmem
  exact ⟨herase.name, herase.params, herase.result, (Block.obeys_map _ f.body).1 herase.body⟩

end Analysis

theorem Header.addEnums_eq (h : Header) (es : List EnumDef) :
    (es.foldl addEnum h).funcs = h.funcs ∧ (es.foldl addEnum h).defs = h.defs ∧
      (es.foldl addEnum h).scopes = h.scopes := by
  induction es generalizing h with
  | nil => exact ⟨rfl, rfl, rfl⟩
  | cons e _ ih =>
    have hadd : (h.addEnum e).funcs = h.funcs ∧ (h.addEnum e).defs = h.defs ∧ (h.addEnum e).scopes = h.scopes := by
      rw [addEnum]
      split <;> exact ⟨rfl, rfl, rfl⟩
    rw [← hadd.1, ← hadd.2.1, ← hadd.2.2]
    exact ih _

theorem Header.declareAll_inner_eq_nil {s : Scopes Symbol} (h : s.inner = []) : (declareAll enums s fs).inner = [] := by
  induction fs generalizing s with
  | nil => exact h
  | cons _ _ ih => exact ih (by simp [Scopes.declare, h])

theorem Header.of_ofProgram_clean (hclean : (ofProgram p).log.Clean) :
    (ofProgram p).funcs = printFunction :: p.funcs.map (symbol (ofProgram p).enums) ∧
      (ofProgram p).defs = p.funcs.map (·, true) ∧
      (ofProgram p).scopes = Analysis.moduleScopes (ofProgram p).enums p.funcs ∧
      ((ofProgram p).funcs.map (·.name)).Nodup ∧
      ∀ f ∈ p.funcs, f.name ∉ runtimeFunctions ∧ f.HeadChecked (ofProgram p).enums := by
  obtain ⟨hnames, hnodup, heq⟩ := of_addFuncs_clean hclean
  obtain ⟨hfuncs, hdefs, hscopes⟩ := addEnums_eq {} p.enums
  rw [hfuncs] at hnames
  rw [ofProgram, heq]
  rw [hfuncs, hdefs, hscopes]
  refine ⟨rfl, rfl, rfl, ?_, fun f hf => ⟨(hnames f hf).1, (hnames f hf).2.2⟩⟩
  have hsymbols : p.funcs.map ((·.name) ∘ symbol (p.enums.foldl addEnum {}).enums) = p.funcs.map (·.name) := rfl
  rw [map_append, map_map, hsymbols, nodup_append]
  refine ⟨by simp, hnodup, fun name hname other hother => ?_⟩
  obtain ⟨f, hf, rfl⟩ := mem_map.1 hother
  rintro rfl
  exact (hnames f hf).2.1 hname

/-- The walk of a program without errors finds nothing fatal. -/
theorem Program.clean_of_hasErrors (h : (p.analyze strict).hasErrors = false) :
    (Walk.definitions (ofProgram p).enums (ofProgram p).defs
      ⟨strict, (ofProgram p).scopes, (ofProgram p).log⟩).2.log.Clean := by
  intro f hf hfatal
  have hnone : ∀ d ∈ (p.analyze strict).diagnostics, ¬d.isError := by
    simpa [Analysis.hasErrors] using h
  refine hnone f.diagnostic (mem_map.2 ⟨f, hf, rfl⟩) ?_
  simp [Diagnostic.isError, Finding.diagnostic, hfatal.severity_eq]

/-- A program without errors is accepted as a whole. -/
theorem Program.accepts_of_hasErrors (h : (p.analyze strict).hasErrors = false) : (p.analyze strict).Accepts p := by
  let header := ofProgram p
  let walked := Walk.definitions header.enums header.defs ⟨strict, header.scopes, header.log⟩
  have hclean : walked.2.log.Clean := clean_of_hasErrors h
  obtain ⟨hfuncs, hdefs, hscopes, hnodup, hheads⟩ := of_ofProgram_clean
    ((Walk.extends_definitions header.enums header.defs ⟨strict, header.scopes, header.log⟩).clean hclean)
  have hwalked : walked = Walk.definitions header.enums (p.funcs.map (·, true))
      ⟨strict, header.scopes, header.log⟩ := by
    rw [← hdefs]
  have hmodule : header.scopes.inner = [] := by
    rw [hscopes]
    exact declareAll_inner_eq_nil rfl
  rw [hwalked] at hclean
  obtain ⟨herase, hchecked⟩ := Walk.definitions_accepted hclean (fun f hf => (hheads f hf).2) hmodule
  rw [← hwalked, hscopes] at hchecked
  rw [← hwalked] at herase
  exact ⟨herase, hfuncs, hnodup, fun f hf => (hheads f hf).1, fun f hf => (hchecked f hf).1,
    fun f hf => (hchecked f hf).2⟩

namespace Header

theorem nodup_of_repetitions {seen names : List String} (h : repetitions seen names = []) :
    names.Nodup ∧ ∀ name ∈ names, name ∉ seen := by
  induction names generalizing seen with
  | nil => simp
  | cons name _ ih =>
    rw [repetitions] at h
    split at h
    · cases h
    · rename_i hnew
      obtain ⟨hnodup, hseen⟩ := ih h
      refine ⟨nodup_cons.2 ⟨fun hmem => hseen name hmem mem_cons_self, hnodup⟩, fun other hother => ?_⟩
      rcases mem_cons.1 hother with rfl | hother
      · simpa using hnew
      · exact fun hmem => hseen other hother (mem_cons_of_mem _ hmem)

theorem extends_addVariants (enumName : String) (span : Span) (variants : List String) (log : Log) :
    log.Extends (variants.foldl (fun log variant => log.addFinding (.duplicateVariant enumName variant) span) log) := by
  induction variants generalizing log with
  | nil => exact .refl _
  | cons _ _ ih => exact (log.extends_addFinding _ _).trans (ih _)

theorem extends_addEnum (h : Header) (e : EnumDef) : h.log.Extends (h.addEnum e).log := by
  rw [addEnum]
  split
  · exact h.log.extends_addFinding _ _
  · exact (extends_addVariants _ _ _ _).trans (Log.extends_addEvent _ _)

theorem extends_addEnums (h : Header) (es : List EnumDef) : h.log.Extends (es.foldl addEnum h).log := by
  induction es generalizing h with
  | nil => exact .refl _
  | cons e _ ih => exact (extends_addEnum h e).trans (ih _)

/-- An enum that is collected without an error names each of its variants once. -/
theorem nodup_addEnum {e : EnumDef} (hclean : (h.addEnum e).log.Clean)
    (henums : ∀ e ∈ h.enums.enums, e.variants.Nodup) : ∀ e' ∈ (h.addEnum e).enums.enums, e'.variants.Nodup := by
  rw [addEnum] at hclean ⊢
  split
  · exact henums
  · rename_i hnew
    rw [if_neg hnew] at hclean
    have hlog := (Log.extends_addEvent _ _).clean hclean
    have hnone : repetitions [] e.variants = [] := by
      cases hrepetitions : repetitions [] e.variants with
      | nil => rfl
      | cons =>
        rw [hrepetitions, foldl_cons] at hlog
        exact absurd rfl ((extends_addVariants _ _ _ _).clean hlog).not_isFatal_of_addFinding
    intro e' he'
    rcases mem_cons.1 he' with rfl | he'
    · exact (nodup_of_repetitions hnone).1
    · exact henums e' (mem_filter.1 he').1

theorem nodup_addEnums {es : List EnumDef} (hclean : (es.foldl addEnum h).log.Clean)
    (henums : ∀ e ∈ h.enums.enums, e.variants.Nodup) : ∀ e ∈ (es.foldl addEnum h).enums.enums, e.variants.Nodup := by
  induction es generalizing h with
  | nil => exact henums
  | cons _ es ih => exact ih hclean (nodup_addEnum ((extends_addEnums _ es).clean hclean) henums)

theorem enums_addFuncs (h : Header) (fs : List (FuncDef Unit)) : (fs.foldl addFunc h).enums = h.enums := by
  induction fs generalizing h with
  | nil => rfl
  | cons _ _ ih =>
    rw [foldl_cons, ih, addFunc]
    split <;> rfl

end Header

/-- The enums that the analysis goes by are those that the program defines, beside the predefined ones. -/
theorem Program.enums_analyze (p : Program Unit) (strict : Bool) :
    (p.analyze strict).enums = (p.enums.foldl addEnum {}).enums :=
  enums_addFuncs _ p.funcs

/-- The enums of a program without errors name each of their variants once. -/
theorem Program.nodup_variants (h : (p.analyze strict).hasErrors = false) :
    ∀ e ∈ (p.analyze strict).enums.enums, e.variants.Nodup := by
  have hclean := (Walk.extends_definitions _ _ _).clean (clean_of_hasErrors h)
  rw [enums_analyze]
  exact nodup_addEnums ((extends_addFuncs _ p.funcs).clean hclean) (by decide)

end LocLang
