import LocLang.Proofs.Analysis.Contained
import LocLang.Proofs.Analysis.Parallel
import LocLang.Proofs.Analysis.Program

namespace LocLang

open Header List

variable {s : State}

def Scopes.ofSymbols (symbols : List Symbol) : Scopes Symbol :=
  symbols.foldl (fun s symbol => s.declare symbol.name symbol) .empty

theorem Scopes.ofSymbols_concat (symbols : List Symbol) (symbol : Symbol) :
    ofSymbols (symbols ++ [symbol]) = (ofSymbols symbols).declare symbol.name symbol := by
  simp [ofSymbols]

theorem Scopes.inner_ofSymbols (symbols : List Symbol) : (ofSymbols symbols).inner = [] := by
  have hfold (s : Scopes Symbol) (hs : s.inner = []) :
      (symbols.foldl (fun s symbol => s.declare symbol.name symbol) s).inner = [] := by
    induction symbols generalizing s with
    | nil => exact hs
    | cons _ _ ih => exact ih _ (by simp [declare, hs])
  exact hfold .empty rfl

theorem Scopes.map_ofSymbols {f : Symbol → Symbol} (hname : ∀ s, (f s).name = s.name) (symbols : List Symbol) :
    (ofSymbols symbols).map f = ofSymbols (symbols.map f) := by
  have hfold (s : Scopes Symbol) : (symbols.foldl (fun s symbol => s.declare symbol.name symbol) s).map f =
      (symbols.map f).foldl (fun s symbol => s.declare symbol.name symbol) (s.map f) := by
    induction symbols generalizing s with
    | nil => rfl
    | cons _ _ ih => simp only [foldl_cons, map_cons, ih, map_declare, hname]
  exact hfold .empty

def Log.appendAll (log : Log) (logs : List Log) : Log where
  findings := log.findings ++ logs.flatMap (·.findings)
  symbols := log.symbols ++ logs.flatMap (·.symbols)
  matchTypes := log.matchTypes ++ logs.flatMap (·.matchTypes)
  events := log.events ++ logs.flatMap (·.events)

@[simp]
theorem Log.appendAll_nil (log : Log) : log.appendAll [] = log := by
  simp [appendAll]

theorem Log.appendAll_cons (log first : Log) (logs : List Log) :
    log.appendAll (first :: logs) = (log.append first).appendAll logs := by
  simp [appendAll, append]

namespace Walk

/-- How the walk of a function ends. Either way it leaves the module alone; the reason to give up is none of its
    reports. -/
theorem function_outcome (enums : EnumTable) (f : FuncDef Unit) (declared : Bool) (s : State) :
    (∃ checked s', (function enums f declared).Gives s checked s' ∧ s'.scopes.base = s.scopes.base ∧
      s.log.Reports s'.log) ∨
      ∃ reason s', (function enums f declared).Stops s reason s' ∧ s'.scopes.base = s.scopes.base ∧
        s.log.Reports s'.log ∧ reason.issue.aborts = true := by
  -- Only the first scope is opened without being closed.
  obtain ⟨inside, hfunction, hsteps⟩ := function_steps enums f declared
  have hinside := hsteps.contained
  let entered : State := { s with scopes := s.scopes.push, log := s.log.addEvent (.functionEntered f.name) }
  have hrun : (function enums f declared).run s = inside.run entered := by
    rw [hfunction]
    rfl
  have hopen : entered.scopes.inner ≠ [] := s.scopes.push_inner_ne_nil
  have hentered : s.log.Reports entered.log := .of_eq rfl
  rcases gives_or_stops inside entered with ⟨checked, s', hgives⟩ | ⟨reason, s', hstops⟩
  · have hsame := hinside.sameOutside hgives hopen
    exact .inl ⟨checked, s', hrun.trans hgives, hsame.base_eq, hentered.trans (hinside.reports hgives)⟩
  · have hbase := hinside.base_eq hstops hopen
    exact .inr ⟨reason, s', hrun.trans hstops, hbase, hentered.trans (hinside.reports_of_stops hstops),
      hinside.aborts hstops⟩

/-- After a function the scopes are those from before it. -/
theorem scopes_of_definition (enums : EnumTable) (f : FuncDef Unit) (declared : Bool)
    (hmodule : s.scopes.inner = []) : (definition enums f declared s).2.scopes = s.scopes := by
  have hleave {t : Scopes Symbol} (hbase : t.base = s.scopes.base) : t.leave = s.scopes := by
    rw [← Scopes.leave_eq_self hmodule, Scopes.leave, Scopes.leave, hbase]
  rcases function_outcome enums f declared s with ⟨checked, s', hgives, hbase, -⟩ | ⟨reason, s', hstops, hbase, -⟩
  · rw [definition_of_gives hgives]
    exact hleave hbase
  · rw [definition_of_stops hstops]
    exact hleave hbase

theorem strict_of_definition (enums : EnumTable) (f : FuncDef Unit) (declared : Bool) (s : State) :
    (definition enums f declared s).2.strict = s.strict := by
  obtain ⟨inside, hfunction, hsteps⟩ := function_steps enums f declared
  have hstrict : ((function enums f declared).run s).2.strict = s.strict := by
    rw [hfunction]
    exact hsteps.strict_run _
  rw [← hstrict, definition]
  split
  · next hrun => rw [hrun]
  · next hrun => rw [hrun]

end Walk

/-- The walk of a function alone, in a module with the given enums and functions. -/
def FuncDef.walkAlone (strict : Bool) (enums : EnumTable) (signatures : List Symbol) (f : FuncDef Unit)
    (declared : Bool) : Option (FuncDef Ty) × Walk.State :=
  Walk.definition enums f declared ⟨strict, .ofSymbols signatures, {}⟩

/-- What there is to say about a function: what its walk alone puts into the log. -/
def FuncDef.ownLog (strict : Bool) (enums : EnumTable) (signatures : List Symbol) (f : FuncDef Unit)
    (declared : Bool) : Log :=
  (f.walkAlone strict enums signatures declared).2.log

/-- Only the last finding about a function can be the reason why its walk was given up, and it is one if it was. -/
theorem FuncDef.ownLog_aborts (strict : Bool) (enums : EnumTable) (signatures : List Symbol) (f : FuncDef Unit)
    (declared : Bool) : (∀ x ∈ (f.ownLog strict enums signatures declared).findings.dropLast, x.issue.aborts = false) ∧
      ((f.walkAlone strict enums signatures declared).1 = none ↔
        ∃ x ∈ (f.ownLog strict enums signatures declared).findings, x.issue.aborts = true) := by
  unfold ownLog walkAlone
  rcases Walk.function_outcome enums f declared ⟨strict, .ofSymbols signatures, {}⟩ with
    ⟨checked, s', hgives, -, new, hnew, hcalm⟩ | ⟨reason, s', hstops, -, ⟨new, hnew, hcalm⟩, habort⟩
  · rw [Walk.definition_of_gives hgives]
    simp only [hnew, reduceCtorEq, false_iff, not_exists, not_and, Bool.not_eq_true]
    exact ⟨fun x hx => hcalm x (dropLast_subset _ hx), hcalm⟩
  · rw [Walk.definition_of_stops hstops]
    simp only [Log.addFinding, hnew, dropLast_concat, true_iff]
    exact ⟨hcalm, reason, by simp, habort⟩

namespace Header

variable {h : Header}

theorem scopes_addFunc (hscopes : h.scopes = .ofSymbols h.funcs) (f : FuncDef Unit) :
    (h.addFunc f).scopes = .ofSymbols (h.addFunc f).funcs := by
  unfold addFunc
  split
  · exact hscopes
  · simp only [Scopes.ofSymbols_concat, hscopes]

/-- The module of a program declares its functions. -/
theorem scopes_ofProgram (p : Program Unit) : (ofProgram p).scopes = .ofSymbols (ofProgram p).funcs := by
  have hfold (fs : List (FuncDef Unit)) {h : Header} (hscopes : h.scopes = .ofSymbols h.funcs) :
      (fs.foldl addFunc h).scopes = .ofSymbols (fs.foldl addFunc h).funcs := by
    induction fs generalizing h with
    | nil => exact hscopes
    | cons f _ ih => exact ih (scopes_addFunc hscopes f)
  obtain ⟨hfuncs, -, hscopes⟩ := addEnums_eq {} p.enums
  apply hfold
  rw [hscopes, hfuncs]
  rfl

/-- The header with other definitions kept for later. -/
def withDefs (h : Header) (defs : List (FuncDef Unit × Bool)) : Header :=
  { h with defs }

theorem withDefs_eq_self {defs : List (FuncDef Unit × Bool)} (hdefs : h.defs = defs) : h.withDefs defs = h := by
  subst hdefs
  rfl

/-- A function is declared by its head; its body is only kept for later. -/
theorem addFunc_withDefs (h : Header) (defs : List (FuncDef Unit × Bool)) (f : FuncDef Unit) (body : Block Unit) :
    (h.withDefs defs).addFunc { f with body } =
      (h.addFunc f).withDefs (defs ++ [({ f with body }, (h.nameIssue? f.name).isNone)]) := by
  have hissue : (h.withDefs defs).nameIssue? f.name = h.nameIssue? f.name := rfl
  unfold addFunc
  rw [hissue]
  cases h.nameIssue? f.name <;> rfl

/-- Which functions are declared does not depend on the definitions that are kept already. -/
theorem exists_addFuncs_withDefs (h : Header) (fs : List (FuncDef Unit)) :
      ∃ new : List (FuncDef Unit × Bool), new.map (·.1) = fs ∧ ∀ defs,
      fs.foldl addFunc (h.withDefs defs) = (fs.foldl addFunc h).withDefs (defs ++ new) := by
  induction fs generalizing h with
  | nil => exact ⟨[], rfl, by simp⟩
  | cons f _ ih =>
    obtain ⟨new, hnew, hfold⟩ := ih (h.addFunc f)
    refine ⟨(f, (h.nameIssue? f.name).isNone) :: new, by rw [map_cons, hnew], fun defs => ?_⟩
    rw [foldl_cons, addFunc_withDefs h defs f f.body, hfold]
    simp

/-- The definitions that are kept are all of them, in order. -/
theorem defs_addFuncs (hdefs : h.defs = []) (fs : List (FuncDef Unit)) : (fs.foldl addFunc h).defs.map (·.1) = fs := by
  obtain ⟨new, hnew, hfold⟩ := exists_addFuncs_withDefs h fs
  have hheader := hfold []
  rw [withDefs_eq_self hdefs] at hheader
  rw [hheader]
  exact hnew

theorem defs_ofProgram (p : Program Unit) : (ofProgram p).defs.map (·.1) = p.funcs :=
  defs_addFuncs (addEnums_eq {} p.enums).2.1 p.funcs

/-- A program with another body for one of its functions has the same header, but for that definition. -/
theorem exists_ofProgram_eq (before : List (Def Unit)) (f : FuncDef Unit) (after : List (Def Unit)) :
    ∃ front back : List (FuncDef Unit × Bool), ∃ declared, front.map (·.1) = Program.funcs ⟨before⟩ ∧
      back.map (·.1) = Program.funcs ⟨after⟩ ∧ ∀ body,
        ofProgram ⟨before ++ .func { f with body } :: after⟩ =
          (ofProgram ⟨before ++ .func f :: after⟩).withDefs (front ++ ({ f with body }, declared) :: back) := by
  let start := (Program.enums ⟨before ++ after⟩).foldl addEnum {}
  let middle := (Program.funcs ⟨before⟩).foldl addFunc start
  have hprogram (g : FuncDef Unit) : ofProgram ⟨before ++ .func g :: after⟩ =
      (Program.funcs ⟨after⟩).foldl addFunc (middle.addFunc g) := by
    simp [ofProgram, Program.enums, Program.funcs, middle, start]
  obtain ⟨back, hback, hfold⟩ := exists_addFuncs_withDefs (middle.addFunc f) (Program.funcs ⟨after⟩)
  refine ⟨middle.defs, back, (middle.nameIssue? f.name).isNone, ?_, hback, fun body => ?_⟩
  · exact defs_addFuncs (addEnums_eq {} _).2.1 _
  · have hadd := addFunc_withDefs middle middle.defs f body
    rw [withDefs_eq_self rfl] at hadd
    rw [hprogram, hprogram, hadd, hfold, append_assoc]
    rfl

end Header

/-- The outlines of the functions that can be called. -/
def Program.signatures (p : Program Unit) : List Symbol :=
  (ofProgram p).funcs.map (·.outline)

/-- What there is to say about each function, in order. -/
def Program.ownLogs (p : Program Unit) (strict : Bool) : List Log :=
  (ofProgram p).defs.map fun d => d.1.ownLog strict (ofProgram p).enums p.signatures d.2

/-- What a function adds to the log of a program is what there is to say about it alone. -/
theorem Walk.log_of_definition (p : Program Unit) (f : FuncDef Unit) (declared : Bool)
    (hs : s.scopes = (ofProgram p).scopes) : (definition (ofProgram p).enums f declared s).2.log =
      s.log.append (f.ownLog s.strict (ofProgram p).enums p.signatures declared) := by
  have hfollows : Follows id s.log ⟨s.strict, .ofSymbols p.signatures, {}⟩ s := by
    constructor
    · rfl
    · have hname (symbol : Symbol) : symbol.outline.name = symbol.name := rfl
      rw [hs, scopes_ofProgram, Scopes.map_ofSymbols hname, Scopes.map_ofSymbols hname, Program.signatures, map_map]
      rfl
    · simp
  have hend := definition_follows hfollows (ofProgram p).enums f declared
  rw [f.moved_id] at hend
  rw [hend.log, Log.moved_id]
  rfl

/-- The walk of all functions says of each what there is to say about it alone, and leaves the module as it was. -/
theorem Walk.definitions_eq (p : Program Unit) (defs : List (FuncDef Unit × Bool))
    (hs : s.scopes = (ofProgram p).scopes) : (definitions (ofProgram p).enums defs s).2 =
      { s with
        log := s.log.appendAll (defs.map fun d => d.1.ownLog s.strict (ofProgram p).enums p.signatures d.2) } := by
  induction defs generalizing s with
  | nil => simp [definitions]
  | cons d _ ih =>
    obtain ⟨f, declared⟩ := d
    have hmodule : s.scopes.inner = [] := by
      rw [hs, scopes_ofProgram, Scopes.inner_ofSymbols]
    have hscopes := scopes_of_definition (ofProgram p).enums f declared hmodule
    have hrest := ih (hscopes.trans hs)
    rw [log_of_definition p f declared hs, hscopes, strict_of_definition] at hrest
    rw [definitions, map_cons, Log.appendAll_cons]
    exact hrest

/-- With another body for one function, the header and what there is to say about the other functions stay the same. -/
theorem Program.exists_ownLogs_eq (strict : Bool) (before : List (Def Unit)) (f : FuncDef Unit)
    (after : List (Def Unit)) :
    ∃ front back : List Log, front.length = (Program.funcs ⟨before⟩).length ∧ ∀ body,
      (ofProgram ⟨before ++ .func { f with body } :: after⟩).log =
          (ofProgram ⟨before ++ .func f :: after⟩).log ∧
        (ofProgram ⟨before ++ .func { f with body } :: after⟩).enums =
          (ofProgram ⟨before ++ .func f :: after⟩).enums ∧
        signatures ⟨before ++ .func { f with body } :: after⟩ = signatures ⟨before ++ .func f :: after⟩ ∧
        ∃ own, ownLogs ⟨before ++ .func { f with body } :: after⟩ strict = front ++ own :: back := by
  obtain ⟨front, back, declared, hfront, -, hprogram⟩ := exists_ofProgram_eq before f after
  let logOf (d : FuncDef Unit × Bool) : Log :=
    d.1.ownLog strict (ofProgram ⟨before ++ .func f :: after⟩).enums
      (signatures ⟨before ++ .func f :: after⟩) d.2
  refine ⟨front.map logOf, back.map logOf, ?_, fun body => ?_⟩
  · rw [← hfront, length_map, length_map]
  · have hsignatures :
        signatures ⟨before ++ .func { f with body } :: after⟩ = signatures ⟨before ++ .func f :: after⟩ := by
      unfold signatures
      rw [hprogram]
      rfl
    unfold ownLogs
    rw [hsignatures, hprogram]
    simp [withDefs, logOf]

/-- Functions are analysed in isolation. The diagnostics of a program are those of its header followed by those of each
    function in order; what there is to say about a function depends on it, on the enums, on the outlines of the
    functions that can be called and on whether it was declared itself. Only the last finding about a function can be
    the reason to give up its walk. After each function the scopes are those of the module again. With another body for
    one function, the header and what there is to say about the other functions stay the same. -/
theorem Program.functions_isolated (p : Program Unit) (strict : Bool) :
    (p.analyze strict).diagnostics =
        ((ofProgram p).log.findings ++ (p.ownLogs strict).flatMap (·.findings)).map (·.diagnostic) ∧
      (p.analyze strict).symbols = (ofProgram p).log.symbols ++ (p.ownLogs strict).flatMap (·.symbols) ∧
      (p.analyze strict).matchTypes = (ofProgram p).log.matchTypes ++ (p.ownLogs strict).flatMap (·.matchTypes) ∧
      (ofProgram p).defs.map (·.1) = p.funcs ∧
      (∀ (f : FuncDef Unit) (declared : Bool), (f, declared) ∈ (ofProgram p).defs →
        (∀ x ∈ (f.ownLog strict (ofProgram p).enums p.signatures declared).findings.dropLast,
          x.issue.aborts = false) ∧
        ((f.walkAlone strict (ofProgram p).enums p.signatures declared).1 = none ↔
          ∃ x ∈ (f.ownLog strict (ofProgram p).enums p.signatures declared).findings, x.issue.aborts = true)) ∧
      (∀ n, (Walk.definitions (ofProgram p).enums ((ofProgram p).defs.take n)
        ⟨strict, (ofProgram p).scopes, (ofProgram p).log⟩).2.scopes = (ofProgram p).scopes) ∧
      ∀ (before : List (Def Unit)) (f : FuncDef Unit) (after : List (Def Unit)), p.defs = before ++ .func f :: after →
        ∃ (front : List Log) (own : Log) (back : List Log), p.ownLogs strict = front ++ own :: back ∧
          front.length = (Program.funcs ⟨before⟩).length ∧ ∀ (body : Block Unit) (q : Program Unit),
            q.defs = before ++ .func { f with body } :: after →
            (ofProgram q).log = (ofProgram p).log ∧ (ofProgram q).enums = (ofProgram p).enums ∧
              q.signatures = p.signatures ∧ ∃ own', q.ownLogs strict = front ++ own' :: back := by
  have hwalk := Walk.definitions_eq p (ofProgram p).defs
    (s := ⟨strict, (ofProgram p).scopes, (ofProgram p).log⟩) rfl
  refine ⟨?_, ?_, ?_, defs_ofProgram p, ?_, ?_, ?_⟩
  · simp only [analyze, hwalk]
    rfl
  · simp only [analyze, hwalk]
    rfl
  · simp only [analyze, hwalk]
    rfl
  · intro f declared _
    exact f.ownLog_aborts strict _ _ declared
  · intro n
    rw [Walk.definitions_eq p _ rfl]
  · intro before f after hp
    obtain ⟨front, back, hlength, hbody⟩ := exists_ownLogs_eq strict before f after
    obtain rfl : p = ⟨before ++ .func f :: after⟩ := by rw [← hp]
    obtain ⟨-, -, -, own, hown⟩ := hbody f.body
    refine ⟨front, own, back, hown, hlength, fun body q hq => ?_⟩
    obtain rfl : q = ⟨before ++ .func { f with body } :: after⟩ := by rw [← hq]
    exact hbody body

end LocLang
