import LocLang.Parser.Program
import LocLang.Proofs.Lowering.Program

namespace LocLang

open List

variable {a : Analysis}

/-- Whether a diagnostic in strict mode and one in lenient mode say the same. They are graded alike unless they are
    about a match that is not exhaustive. -/
structure Diagnostic.SameButGrade (strict lenient : Diagnostic) : Prop where
  kind : lenient.kind = strict.kind
  span : lenient.span = strict.span
  message : lenient.message = strict.message
  grade : strict.kind ≠ .nonExhaustiveMatch → lenient.severity = strict.severity
  relaxed : strict.kind = .nonExhaustiveMatch → strict.severity = .error ∧ lenient.severity = .warning

theorem Diagnostic.SameButGrade.refl {d : Diagnostic} (h : d.kind ≠ .nonExhaustiveMatch) : d.SameButGrade d :=
  ⟨rfl, rfl, rfl, fun _ => rfl, fun hkind => absurd hkind h⟩

theorem Diagnostic.SameButGrade.isError {d d' : Diagnostic} (h : d.SameButGrade d') (herror : d'.isError) :
    d.isError := by
  by_cases hkind : d.kind = .nonExhaustiveMatch
  · simp [Diagnostic.isError, (h.relaxed hkind).1]
  · simpa [Diagnostic.isError, h.grade hkind] using herror

theorem Issue.kind_ne_of_plain {i : Issue} (h : i.plain = true) : i.kind ≠ .nonExhaustiveMatch := by
  cases i with
  | notExhaustive => cases h
  | _ => exact nofun

theorem Issue.IsFatal.kind_ne {i : Issue} (h : i.IsFatal) : i.kind ≠ .nonExhaustiveMatch := by
  simp only [IsFatal, Bool.and_eq_true, decide_eq_true_eq] at h
  exact h.1

/-- Whether the logs of a strict walk and of a lenient one say the same but for the grades. -/
structure Log.SameButGrade (strict lenient : Log) : Prop where
  findings : Forall₂ (fun f f' => f.diagnostic.SameButGrade f'.diagnostic) strict.findings lenient.findings
  symbols : lenient.symbols = strict.symbols
  matchTypes : lenient.matchTypes = strict.matchTypes
  events : lenient.events = strict.events

namespace Log.SameButGrade

variable {log log' : Log}

theorem refl (h : ∀ f ∈ log.findings, f.issue.kind ≠ .nonExhaustiveMatch) : log.SameButGrade log :=
  ⟨forall₂_same.2 fun f hf => .refl (h f hf), rfl, rfl, rfl⟩

/-- What both walks grade alike. -/
theorem addFinding (h : log.SameButGrade log') {issue : Issue} (hkind : issue.kind ≠ .nonExhaustiveMatch)
    (span : Span) : (log.addFinding issue span).SameButGrade (log'.addFinding issue span) :=
  ⟨rel_append h.findings (.cons (.refl hkind) .nil), h.symbols, h.matchTypes, h.events⟩

/-- What an error is to the strict walk only. -/
theorem addGap (h : log.SameButGrade log') (gap : Gap) (span : Span) :
    (log.addFinding (.notExhaustive .error gap) span).SameButGrade
      (log'.addFinding (.notExhaustive .warning gap) span) :=
  ⟨rel_append h.findings (.cons ⟨rfl, rfl, rfl, fun hkind => absurd rfl hkind, fun _ => ⟨rfl, rfl⟩⟩ .nil),
    h.symbols, h.matchTypes, h.events⟩

end Log.SameButGrade

namespace Walk

variable {α β : Type} {x : Walk α}

/-- Whether a strict walk and a lenient one are at the same point: they have declared the same, and their logs differ in
    grades only. -/
structure State.Relaxes (s s' : State) : Prop where
  strict : s.strict = true
  lenient : s'.strict = false
  scopes : s'.scopes = s.scopes
  log : s.log.SameButGrade s'.log

namespace State.Relaxes

variable {s s' : State}

theorem push (h : s.Relaxes s') : Relaxes { s with scopes := s.scopes.push } { s' with scopes := s'.scopes.push } :=
  ⟨h.strict, h.lenient, congrArg Scopes.push h.scopes, h.log⟩

theorem pop (h : s.Relaxes s') : Relaxes { s with scopes := s.scopes.pop } { s' with scopes := s'.scopes.pop } :=
  ⟨h.strict, h.lenient, congrArg Scopes.pop h.scopes, h.log⟩

theorem tell (h : s.Relaxes s') (event : Event) :
    Relaxes { s with log := s.log.addEvent event } { s' with log := s'.log.addEvent event } :=
  ⟨h.strict, h.lenient, h.scopes, h.log.findings, h.log.symbols, h.log.matchTypes, congrArg (· ++ [event]) h.log.events⟩

end State.Relaxes

/-- Whether a walk ends alike in both modes: with the same value, or given up for the same reason. -/
abbrev Relaxes (x : Walk α) : Prop :=
  Beside State.Relaxes Eq x x Eq

/-- Only the report of a gap asks how strict the walk is, and it goes on in both modes. -/
theorem Steps.relaxes (h : Steps x) : Relaxes x := by
  induction h with
  | pure => exact .pure rfl
  | bind _ _ ihx ihf => exact ihx.bind fun h => h ▸ ihf _
  | report plain span =>
    exact .of_step (fun _ => rfl) (fun _ => rfl) fun hs =>
      ⟨rfl, hs.strict, hs.lenient, hs.scopes, hs.log.addFinding (Issue.kind_ne_of_plain plain) span⟩
  | reportGap gap span =>
    refine .of_step (run_reportGap gap span) (run_reportGap gap span) fun hs =>
      ⟨rfl, hs.strict, hs.lenient, hs.scopes, ?_⟩
    rw [hs.strict, hs.lenient]
    exact hs.log.addGap gap span
  | giveUp => exact .giveUp rfl
  | tell event => exact .of_step (fun _ => rfl) (fun _ => rfl) fun hs => ⟨rfl, hs.tell event⟩
  | recordMatch span type =>
    exact .of_step (fun _ => rfl) (fun _ => rfl) fun hs => ⟨rfl, hs.strict, hs.lenient, hs.scopes, hs.log.findings,
      hs.log.symbols, congrArg (· ++ [(span, type)]) hs.log.matchTypes, hs.log.events⟩
  | scopes => exact .of_step (fun _ => rfl) (fun _ => rfl) fun hs => ⟨hs.scopes.symm, hs⟩
  | declare symbol =>
    exact .of_step (fun _ => rfl) (fun _ => rfl) fun hs => ⟨rfl, hs.strict, hs.lenient,
      congrArg (·.declare symbol.name symbol) hs.scopes, hs.log.findings, congrArg (· ++ [symbol]) hs.log.symbols,
      hs.log.matchTypes, hs.log.events⟩
  | inScope deferred _ ih => exact ih.inScope deferred .push .pop

theorem function_relaxes (enums : EnumTable) (f : FuncDef Unit) (declared : Bool) :
    Relaxes (function enums f declared) := by
  obtain ⟨inside, hfunction, hsteps⟩ := function_steps enums f declared
  have htell : Relaxes (tell (.functionEntered f.name)) := .of_step (fun _ => rfl)
      (fun _ => rfl) fun hs => ⟨rfl, hs.tell _⟩
  have hpush : Relaxes push := .of_step (fun _ => rfl) (fun _ => rfl) fun hs => ⟨rfl, hs.push⟩
  rw [hfunction]
  exact htell.bind fun _ => hpush.bind fun _ => hsteps.relaxes

/-- A definition is walked to its end in both modes or in none, and in both it leaves the module as it was. -/
theorem definition_relaxes (enums : EnumTable) (f : FuncDef Unit) (declared : Bool) {s s' : State} (hs : s.Relaxes s') :
    (definition enums f declared s').1 = (definition enums f declared s).1 ∧
      (definition enums f declared s).2.Relaxes (definition enums f declared s').2 := by
  rcases gives_or_stops (function enums f declared) s with ⟨f', t, h⟩ | ⟨reason, t, h⟩
  · obtain ⟨_, t', h', rfl, ht⟩ := (function_relaxes enums f declared).gives hs h
    rw [definition_of_gives h, definition_of_gives h']
    exact ⟨rfl, ht.strict, ht.lenient, congrArg Scopes.leave ht.scopes, ht.log⟩
  · have hfatal := (function_honest enums f declared).isFatal_of_stops h
    obtain ⟨_, t', h', rfl, ht⟩ := (function_relaxes enums f declared).stops hs h
    rw [definition_of_stops h, definition_of_stops h']
    exact ⟨rfl, ht.strict, ht.lenient, congrArg Scopes.leave ht.scopes, ht.log.addFinding hfatal.kind_ne reason.span⟩

theorem definitions_relax (enums : EnumTable) (defs : List (FuncDef Unit × Bool)) {s s' : State} (hs : s.Relaxes s') :
    (definitions enums defs s').1 = (definitions enums defs s).1 ∧
      (definitions enums defs s).2.Relaxes (definitions enums defs s').2 := by
  induction defs generalizing s s' with
  | nil => exact ⟨rfl, hs⟩
  | cons d _ ih =>
    obtain ⟨hfirst, hs1⟩ := definition_relaxes enums d.1 d.2 hs
    obtain ⟨hrest, ht⟩ := ih hs1
    refine ⟨?_, ht⟩
    simp only [definitions, hfirst, hrest]

end Walk

namespace Header

/-- Whether a log has only findings that every walk grades alike. -/
def Plain (log : Log) : Prop :=
  ∀ f ∈ log.findings, f.issue.plain = true

theorem Plain.addFinding {log : Log} (h : Plain log) {issue : Issue} (hissue : issue.plain = true) (span : Span) :
    Plain (log.addFinding issue span) :=
  forall_mem_append.2 ⟨h, forall_mem_singleton.2 hissue⟩

theorem plain_addEnum {h : Header} (hplain : Plain h.log) (e : EnumDef) : Plain (h.addEnum e).log := by
  unfold addEnum
  split
  · exact hplain.addFinding rfl _
  · have hfold : Plain ((repetitions [] e.variants).foldl
        (fun log variant => log.addFinding (.duplicateVariant e.name variant) e.span) h.log) :=
      foldlRecOn _ _ hplain fun _ hlog _ _ => hlog.addFinding rfl _
    exact hfold

theorem plain_checkLabel {log : Log} (hplain : Plain log) (enums : EnumTable) (label : Option TypeLabel) :
    Plain (checkLabel enums log label) := by
  unfold checkLabel
  split
  · next hfinding => exact hplain.addFinding (Walk.plain_of_labelFinding? hfinding) _
  · exact hplain

theorem plain_checkParam {log : Log} (hplain : Plain log) (enums : EnumTable) (param : Param) :
    Plain (checkParam enums log param) := by
  have hlabel := plain_checkLabel hplain enums (some param.label)
  unfold checkParam
  split
  · exact hlabel.addFinding rfl _
  · exact hlabel

theorem plain_addFunc {h : Header} (hplain : Plain h.log) (f : FuncDef Unit) : Plain (h.addFunc f).log := by
  unfold addFunc
  split
  · next issue hissue =>
    refine hplain.addFinding ?_ _
    unfold nameIssue? at hissue
    repeat' split at hissue
    all_goals cases hissue <;> rfl
  · have hfold : Plain (f.params.foldl (checkParam h.enums) (checkLabel h.enums h.log f.result)) :=
      foldlRecOn _ _ (plain_checkLabel hplain _ _) fun _ hlog param _ => plain_checkParam hlog _ param
    exact hfold

/-- The declarations at the top of a program are graded alike in both modes. -/
theorem plain_ofProgram (p : Program Unit) : Plain (ofProgram p).log := by
  have hstart : Plain (p.enums.foldl addEnum {}).log :=
    foldlRecOn (motive := fun h : Header => Plain h.log) _ _ (by simp [Plain]) fun _ h e _ => plain_addEnum h e
  exact foldlRecOn (motive := fun h : Header => Plain h.log) _ _ hstart fun _ h f _ => plain_addFunc h f

end Header

/-- Declaring functions takes nothing from an analysis but what it knows of each by its name. -/
theorem Lower.signatures_eq {b : Analysis} (h : ∀ name, a.function? name = b.function? name) (fs : List (FuncDef Ty)) :
    signatures a fs = signatures b fs := by
  induction fs with
  | nil => rfl
  | cons _ _ ih => simp only [signatures, h, ih]

/-- Analyses without errors have the same code if their functions are lowered alike. -/
theorem Analysis.lower_eq {b : Analysis} (ha : a.hasErrors = false) (hb : b.hasErrors = false)
    (h : Lower.program a = Lower.program b) (target : Target) : a.lower target = b.lower target := by
  unfold lower
  rw [ha, hb, h]
  rfl

theorem Analysis.lower_diagnostics {ds : List Diagnostic} (ha : a.hasErrors = false)
    (hb : { a with diagnostics := ds }.hasErrors = false) (target : Target) :
    { a with diagnostics := ds }.lower target = a.lower target := by
  have hsignatures := Lower.signatures_eq (a := { a with diagnostics := ds }) (b := a) fun _ => rfl
  apply lower_eq hb ha
  rw [Lower.program, hsignatures]
  rfl

namespace Program

variable (p : Program Unit)

/-- The walks of both modes, side by side from the head of the program to its end. -/
theorem analyze_relaxes : Forall₂ Diagnostic.SameButGrade (p.analyze true).diagnostics (p.analyze false).diagnostics ∧
    p.analyze false = { p.analyze true with diagnostics := (p.analyze false).diagnostics } := by
  let header := Header.ofProgram p
  have hstart : Walk.State.Relaxes ⟨true, header.scopes, header.log⟩ ⟨false, header.scopes, header.log⟩ :=
    ⟨rfl, rfl, rfl, .refl fun f hf => Issue.kind_ne_of_plain (Header.plain_ofProgram p f hf)⟩
  obtain ⟨hchecked, hend⟩ := Walk.definitions_relax header.enums header.defs hstart
  constructor
  · exact forall₂_map_left_iff.2 (forall₂_map_right_iff.2 hend.log.findings)
  · simp only [analyze]
    rw [hchecked, hend.log.symbols, hend.log.matchTypes, hend.log.events]

/-- What is no error in strict mode is none in lenient mode. -/
theorem hasErrors_lenient (h : (p.analyze true).hasErrors = false) : (p.analyze false).hasErrors = false := by
  simp only [Analysis.hasErrors, any_eq_false] at h ⊢
  intro d' hmem herror
  obtain ⟨i, hi, rfl⟩ := getElem_of_mem hmem
  have hi' : i < (p.analyze true).diagnostics.length := by
    rw [p.analyze_relaxes.1.length_eq]
    exact hi
  exact h _ (getElem_mem hi') ((p.analyze_relaxes.1.get hi' hi).isError herror)

/-- Strictness decides how serious a match that is not exhaustive is, and nothing else: the diagnostics of both modes
    say the same in the same order, all else that an analysis says is equal, and a program without errors in strict mode
    has none in lenient mode and is lowered to the same module in both. -/
theorem strictness_only_grades : (p.analyze true).diagnostics.length = (p.analyze false).diagnostics.length ∧
      (∀ (i : Nat) (d d' : Diagnostic), (p.analyze true).diagnostics[i]? = some d →
        (p.analyze false).diagnostics[i]? = some d' → d.SameButGrade d') ∧
      (p.analyze true).symbols = (p.analyze false).symbols ∧ (p.analyze true).funcs = (p.analyze false).funcs ∧
      (p.analyze true).enums = (p.analyze false).enums ∧ (p.analyze true).trace = (p.analyze false).trace ∧
      (p.analyze true).matchTypes = (p.analyze false).matchTypes ∧
      ((p.analyze true).hasErrors = false → (p.analyze false).hasErrors = false ∧
        ∀ target : Target, ∃ m, (p.analyze true).lower target = .ok m ∧ (p.analyze false).lower target = .ok m) := by
  obtain ⟨hdiagnostics, hrest⟩ := p.analyze_relaxes
  refine ⟨hdiagnostics.length_eq, fun i d d' h h' => ?_, by rw [hrest], by rw [hrest], by rw [hrest], ?_, by rw [hrest],
    fun herrors => ?_⟩
  · obtain ⟨hi, rfl⟩ := List.getElem?_eq_some_iff.1 h
    obtain ⟨hi', rfl⟩ := List.getElem?_eq_some_iff.1 h'
    exact hdiagnostics.get hi hi'
  · rw [hrest]
    rfl
  · have hlenient := p.hasErrors_lenient herrors
    refine ⟨hlenient, fun target => ?_⟩
    obtain ⟨m, hlower, -⟩ := Lower.program_lowers (accepts_of_hasErrors herrors) herrors target
    rw [hrest] at hlenient ⊢
    exact ⟨m, hlower, (Analysis.lower_diagnostics herrors hlenient target).trans hlower⟩

/-- A match without a case for most numbers is an error in strict mode only. -/
example : (Source.ofText "fn f(n: i32) { match n { 0 => print(n) } }").parse.toOption.any fun p =>
    (p.analyze true).hasErrors && !(p.analyze false).hasErrors && (p.analyze false).diagnostics.length = 1 := by
  decide +kernel

end Program

end LocLang
