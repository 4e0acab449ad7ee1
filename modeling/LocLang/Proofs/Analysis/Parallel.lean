import LocLang.Proofs.Analysis.Steps
import LocLang.Proofs.Scopes
import LocLang.Proofs.Tree.Moved

namespace LocLang

open Log List

/-- What walks go by: the symbol without its place and without the wording of its type. -/
def Symbol.outline (s : Symbol) : Symbol :=
  { s with span := none, typeName := "" }

section Moved

variable (move : Pos → Pos)

def Symbol.moved (s : Symbol) : Symbol :=
  { s with span := s.span.map (·.moved move) }

def Finding.moved (f : Finding) : Finding :=
  { f with span := f.span.moved move }

def Diagnostic.moved (d : Diagnostic) : Diagnostic :=
  { d with span := d.span.map (·.moved move) }

def Log.moved (log : Log) : Log where
  findings := log.findings.map (·.moved move)
  symbols := log.symbols.map (·.moved move)
  matchTypes := log.matchTypes.map fun (span, type) => (span.moved move, type)
  events := log.events

@[simp]
theorem Symbol.outline_moved (s : Symbol) : (s.moved move).outline = s.outline := rfl

@[simp]
theorem Finding.diagnostic_moved (f : Finding) : (f.moved move).diagnostic = f.diagnostic.moved move := rfl

@[simp]
theorem Log.moved_id (log : Log) : log.moved id = log := by
  have hsymbol (s : Symbol) : s.moved id = s := by simp [Symbol.moved]
  have hfinding (f : Finding) : f.moved id = f := rfl
  simp [moved, hsymbol, hfinding]

end Moved

def Log.append (log log' : Log) : Log where
  findings := log.findings ++ log'.findings
  symbols := log.symbols ++ log'.symbols
  matchTypes := log.matchTypes ++ log'.matchTypes
  events := log.events ++ log'.events

@[simp]
theorem Log.append_empty (log : Log) : log.append {} = log := by
  simp [append]

namespace Walk

variable {s s' : State} {table table' : Scopes Symbol}

variable {α β γ δ : Type} (move : Pos → Pos) (before : Log)

/-- Whether a state is that of a walk with moved places, which started with the log `before`. -/
structure Follows (s s' : State) : Prop where
  strict : s'.strict = s.strict
  scopes : s'.scopes.map Symbol.outline = s.scopes.map Symbol.outline
  log : s'.log = before.append (s.log.moved move)

/-- Whether two walks from states of which one follows the other end alike: with values that are related by `R`, or for
    the same reason. -/
abbrev Parallel (x : Walk α) (x' : Walk β) (R : α → β → Prop) : Prop :=
  Beside (Follows move before) (fun reason reason' => reason' = reason.moved move) x x' R

variable {move before}

theorem Follows.push (h : Follows move before s s') :
    Follows move before { s with scopes := s.scopes.push } { s' with scopes := s'.scopes.push } :=
  ⟨h.strict, by simp [h.scopes], h.log⟩

theorem Follows.pop (h : Follows move before s s') :
    Follows move before { s with scopes := s.scopes.pop } { s' with scopes := s'.scopes.pop } :=
  ⟨h.strict, by simp [h.scopes], h.log⟩

/-- Names refer to symbols with the same outline. -/
theorem outline_resolve? (h : table'.map Symbol.outline = table.map Symbol.outline) (name : String) :
    (table'.resolve? name).map (·.map Symbol.outline) = (table.resolve? name).map (·.map Symbol.outline) := by
  rw [← Scopes.resolve?_map, h, Scopes.resolve?_map]

/-- What there is to say about a declaration depends on outlines only. -/
theorem declarationIssue?_eq (h : table'.map Symbol.outline = table.map Symbol.outline)
    (symbol : Symbol) : declarationIssue? table' symbol = declarationIssue? table symbol := by
  have houtline (s : Scopes Symbol) : declarationIssue? (s.map Symbol.outline) symbol = declarationIssue? s symbol := by
    unfold declarationIssue?
    rw [Scopes.declaredHere?_map, Scopes.depth_map, Scopes.resolveAt?_map]
    cases s.declaredHere? symbol.name with
    | some => rfl
    | none => cases s.resolveAt? symbol.name 1 <;> rfl
  rw [← houtline, h, houtline]

theorem enumName?_outline (table : Scopes Symbol) :
    ∀ e : Expr Unit, e.enumName? (table.map Symbol.outline) = e.enumName? table
  | .ident _ name => by
    simp only [Expr.enumName?, Scopes.resolve?_map]
    cases table.resolve? name <;> rfl
  | .call _ callee _ => by
    cases callee with
    | ident _ name =>
      simp only [Expr.enumName?, Scopes.resolve?_map]
      cases table.resolve? name <;> rfl
    | _ => rfl
  | .assign _ target _ => enumName?_outline table target
  | .paren _ inner => enumName?_outline table inner
  | .literal _ _ | .variant _ _ _ | .binary _ _ _ _ | .select _ => rfl

theorem enumName?_moved (table : Scopes Symbol) : ∀ e : Expr Unit, (e.moved move).enumName? table = e.enumName? table
  | .call _ callee _ => by cases callee <;> simp only [Expr.moved, Expr.enumName?]
  | .assign _ target _ => enumName?_moved table target
  | .paren _ inner => enumName?_moved table inner
  | .ident _ _ | .literal _ _ | .variant _ _ _ | .binary _ _ _ _ | .select
    _ => by simp only [Expr.moved, Expr.enumName?]

theorem covers?_moved (enumName : String) (p : Pattern) : (p.moved move).covers? enumName = p.covers? enumName := by
  cases p with
  | variant _ _ _ args => cases args <;> simp [Pattern.moved, Pattern.covers?]
  | _ => simp [Pattern.moved, Pattern.covers?]

theorem isTruth_moved (value : Bool) (p : Pattern) : (p.moved move).isTruth value = p.isTruth value := by
  cases p with
  | variant _ _ _ args => cases args <;> simp [Pattern.moved, Pattern.isTruth]
  | literal _ value => cases value <;> simp [Pattern.moved, Pattern.isTruth]
  | _ => simp [Pattern.moved, Pattern.isTruth]

theorem isIrrefutable_moved (p : Pattern) : (p.moved move).isIrrefutable = p.isIrrefutable := by
  cases p with
  | variant _ _ _ args => cases args <;> simp [Pattern.moved, Pattern.isIrrefutable]
  | _ => simp [Pattern.moved, Pattern.isIrrefutable]

/-- What patterns leave out does not depend on their places. -/
theorem gap?_moved (enums : EnumTable) (type : Ty) (enumName : Option String) (patterns : List Pattern) :
    enums.gap? type enumName (patterns.map (·.moved move)) = enums.gap? type enumName patterns := by
  simp [EnumTable.gap?, any_map, filterMap_map, Function.comp_def, covers?_moved, isTruth_moved, isIrrefutable_moved]

theorem labelType_moved (enums : EnumTable) (label : Option TypeLabel) :
    enums.labelType (label.map (·.moved move)) = enums.labelType label := by
  cases label with
  | none => rfl
  | some => simp [EnumTable.labelType]

theorem labelFinding?_moved (enums : EnumTable) (label : Option TypeLabel) :
    enums.labelFinding? (label.map (·.moved move)) = (enums.labelFinding? label).map (·.moved move) := by
  cases label with
  | none => rfl
  | some label =>
    have htype : enums.labelType (some (label.moved move)) = enums.labelType (some label) :=
      labelType_moved enums (some label)
    simp only [Option.map_some, EnumTable.labelFinding?, htype, TypeLabel.isGeneric_moved, TypeLabel.text_moved,
      TypeLabel.name_moved, TypeLabel.span_moved]
    by_cases hunknown : (enums.labelType (some label)).1 = .unknown
    · by_cases hgeneric : label.isGeneric = true
      · simp [hunknown, hgeneric, Finding.moved]
      · simp [hunknown, hgeneric, Finding.moved]
    · simp [hunknown]

namespace Parallel

variable {x : Walk α} {x' : Walk β} {R : α → β → Prop} {g : α → Walk γ} {g' : β → Walk δ} {Q : γ → δ → Prop}

theorem report (issue : Issue) (span : Span) :
    Parallel move before (report issue span) (report issue (span.moved move)) Eq :=
  .of_step (fun _ => rfl) (fun _ => rfl) fun hs => ⟨rfl, hs.strict, hs.scopes, by
    simp [hs.log, addFinding, append, Log.moved, Finding.moved]⟩

theorem reportGap (gap : Gap) (span : Span) :
    Parallel move before (reportGap gap span) (reportGap gap (span.moved move)) Eq :=
  .of_step (run_reportGap gap span) (run_reportGap gap _) fun hs => ⟨rfl, hs.strict, hs.scopes, by
    simp [hs.log, hs.strict, addFinding, append, Log.moved, Finding.moved]⟩

theorem reportAt (issue : Issue) (e : Expr Unit) :
    Parallel move before (Walk.report issue e.span) (Walk.report issue (e.moved move).span) Eq := by
  rw [Expr.span_moved]
  exact report issue e.span

theorem giveUp (issue : Issue) (span : Span) :
    Parallel move before (giveUp issue span : Walk α) (giveUp issue (span.moved move) : Walk β) R :=
  Beside.giveUp rfl

theorem tell (event : Event) : Parallel move before (tell event) (tell event) Eq :=
  .of_step (fun _ => rfl) (fun _ => rfl) fun hs =>
    ⟨rfl, hs.strict, hs.scopes, by simp [hs.log, addEvent, append, Log.moved]⟩

theorem recordMatch (span : Span) (type : Ty) :
    Parallel move before (recordMatch span type) (recordMatch (span.moved move) type) Eq :=
  .of_step (fun _ => rfl) (fun _ => rfl) fun hs => ⟨rfl, hs.strict, hs.scopes, by
    simp [hs.log, addMatchType, append, Log.moved]⟩

theorem push : Parallel move before push push Eq :=
  .of_step (fun _ => rfl) (fun _ => rfl) fun hs => ⟨rfl, hs.push⟩

theorem ite {c : Prop} [Decidable c] {y : Walk α} {y' : Walk β} (hx : Parallel move before x x' R)
    (hy : Parallel move before y y' R) : Parallel move before (if c then x else y) (if c then x' else y') R := by
  split
  · exact hx
  · exact hy

/-- Something to report under a condition, and what comes after it in any case. -/
theorem reported {c : Prop} [Decidable c] {issue : Issue} {span : Span} (hx : Parallel move before x x' R) :
    Parallel move before (if c then Walk.report issue span >>= fun _ => x else x)
      (if c then Walk.report issue (span.moved move) >>= fun _ => x' else x') R :=
  ite ((report issue span).bind fun _ => hx) hx

/-- Both walks look at their scopes, which have the same outlines. -/
theorem scopes_bind {k : Scopes Symbol → Walk γ} {k' : Scopes Symbol → Walk δ}
    (hk : ∀ table table', table'.map Symbol.outline = table.map Symbol.outline → Parallel move before (k table)
    (k' table') Q) : Parallel move before (scopes >>= k) (scopes >>= k') Q where
  gives {s s' _ _} hs hgives := (hk s.scopes s'.scopes hs.scopes).gives hs hgives
  stops {s s' _ _} hs hstops := (hk s.scopes s'.scopes hs.scopes).stops hs hstops

/-- Both walks look up a name, which refers to symbols with the same outline. -/
theorem lookup_bind (name : String) (span : Span) {k : Symbol → Walk γ} {k' : Symbol → Walk δ}
    (hk : ∀ symbol symbol' : Symbol, symbol'.outline = symbol.outline → Parallel move before (k symbol)
    (k' symbol') Q) : Parallel move before (lookup name span >>= k) (lookup name (span.moved move) >>= k') Q := by
  simp only [lookup, bind_assoc]
  refine scopes_bind fun table table' htable => ?_
  have hname := outline_resolve? htable name
  cases hresolve : table.resolve? name with
  | none =>
    rw [hresolve, Option.map_none, Option.map_eq_none_iff] at hname
    rw [hname]
    exact (giveUp (R := Eq) _ _).bind fun h => hk _ _ (congrArg _ h.symm)
  | some =>
    rw [hresolve, Option.map_some, Option.map_eq_some_iff] at hname
    obtain ⟨entry', hresolve', heq⟩ := hname
    rw [hresolve']
    exact hk _ _ (congrArg Scope.Entry.value heq)

theorem reportIf (issue : Option Issue) (span : Span) :
    Parallel move before (reportIf issue span) (reportIf issue (span.moved move)) Eq := by
  cases issue with
  | some => exact report _ _
  | none => exact .pure rfl

theorem define (symbol : Symbol) (span : Span) :
    Parallel move before (define symbol span) (define symbol (span.moved move)) Eq := by
  refine scopes_bind fun table table' htable => ?_
  have hdepth : table'.depth = table.depth := by
    rw [← Scopes.depth_map Symbol.outline, htable, Scopes.depth_map]
  have hdeclare : Parallel move before
      (modify fun s => { s with
        scopes := s.scopes.declare symbol.name { symbol with depth := table.depth, span := some span }
        log := s.log.addSymbol { symbol with depth := table.depth, span := some span } } : Walk Unit)
      (modify fun s => { s with
        scopes := s.scopes.declare symbol.name { symbol with depth := table.depth, span := some (span.moved move) }
        log := s.log.addSymbol { symbol with depth := table.depth, span := some (span.moved move) } } : Walk Unit) Eq :=
    .of_step (fun _ => rfl) (fun _ => rfl) fun hs => ⟨rfl, hs.strict, by simp [hs.scopes, Symbol.outline], by
      simp [hs.log, addSymbol, append, Log.moved, Symbol.moved]⟩
  rw [declarationIssue?_eq htable, hdepth]
  cases declarationIssue? table symbol with
  | none => exact hdeclare
  | some => exact (report _ _).bind fun _ => hdeclare

theorem resolveType (enums : EnumTable) (label : Option TypeLabel) :
    Parallel move before (resolveType enums label) (resolveType enums (label.map (·.moved move))) Eq := by
  rw [Walk.resolveType, Walk.resolveType, labelFinding?_moved, labelType_moved]
  cases enums.labelFinding? label with
  | none => exact .pure rfl
  | some => exact (report _ _).bind fun _ => .pure rfl

theorem literal (expected : Ty) (span : Span) (value : Literal) :
    Parallel move before (literal expected span value) (literal expected (span.moved move) value) Eq := by
  cases value with
  | int =>
    exact ite (.pure rfl) (reported (.pure rfl))
  | float | bool => exact .pure rfl

theorem pattern (enums : EnumTable) (type : Ty) (enumName : Option String) (p : Pattern) :
    Parallel move before (pattern enums type enumName p) (pattern enums type enumName (p.moved move)) Eq := by
  cases p with
  | wildcard => exact .pure rfl
  | literal _ value =>
    simp only [Pattern.moved, Walk.pattern]
    cases value.patternIssue? type with
    | none => exact .pure rfl
    | some => exact report _ _
  | bind => exact define _ _
  | variant _ name variant args =>
    have hlength : ((args.map (·.map (·.moved move))).getD []).length = (args.getD []).length := by
      cases args <;> simp
    rw [Pattern.moved_variant, Walk.pattern, Walk.pattern]
    cases enums.variantIssue? name variant with
    | some => exact report _ _
    | none =>
      rw [hlength]
      cases enumName with
      | none => exact ite (report _ _) (.pure rfl)
      | some => exact reported (ite (report _ _) (.pure rfl))

end Parallel

-- By induction on the tree. Each step has a step with the moved places at its side; of what comes of the steps, only
-- types lead on.
section Trees

variable (env : Env)

mutual

theorem expr_parallel (expected : Ty) : ∀ e, Parallel move before (expr env expected e)
    (expr env expected (e.moved move)) fun r r' => r.1 = r'.1
  | .literal span value => (Parallel.literal expected span value).bind fun h => .pure h
  | .ident span name => by
    refine .lookup_bind name span fun symbol symbol' hsymbol => ?_
    have hkind : symbol'.kind = symbol.kind := congrArg (·.kind) hsymbol
    have htype : symbol'.type = symbol.type := congrArg (·.type) hsymbol
    rw [hkind, htype]
    exact .reported (.pure rfl)
  | .variant span _ _ => (Parallel.reportIf _ span).bind fun _ => .pure rfl
  | .binary _ _ lhs rhs =>
    (expr_parallel .unknown lhs).bind fun hlhs => (expr_parallel .unknown rhs).bind fun hrhs =>
      .pure (by rw [hlhs, hrhs])
  | .assign _ target rhs => by
    cases target with
    | ident targetSpan name =>
      refine .lookup_bind name targetSpan fun symbol symbol' hsymbol => ?_
      have htype : symbol'.type = symbol.type := congrArg (·.type) hsymbol
      have hissue : assignIssue? symbol' = assignIssue? symbol := by
        have houtline (s : Symbol) : assignIssue? s.outline = assignIssue? s := rfl
        rw [← houtline, hsymbol, houtline]
      rw [htype, hissue]
      exact (Parallel.reportIf _ targetSpan).bind fun _ => (expr_parallel symbol.type rhs).bind fun _ => .pure rfl
    | _ => exact (Parallel.reportAt _ _).bind fun _ => (expr_parallel .unknown rhs).bind fun h => .pure h
  | .call _ callee args => by
    cases callee with
    | ident calleeSpan name =>
      refine .lookup_bind name calleeSpan fun symbol symbol' hsymbol => ?_
      have hkind : symbol'.kind = symbol.kind := congrArg (·.kind) hsymbol
      have htype : symbol'.type = symbol.type := congrArg (·.type) hsymbol
      have hname : symbol'.name = symbol.name := congrArg (·.name) hsymbol
      have hparams : symbol'.params = symbol.params := congrArg (·.params) hsymbol
      have hlength : (Expr.movedList move args).length = args.length := by simp [Expr.movedList_eq_map]
      rw [hkind, htype, hname, hparams, hlength]
      exact .ite (.reported ((arguments_parallel symbol.params args).bind fun _ => .pure rfl)) (.giveUp _ _)
    | _ => exact (Parallel.reportAt _ _).bind fun _ => (arguments_parallel [] args).bind fun _ => .pure rfl
  | .paren _ inner => (expr_parallel expected inner).bind fun h => .pure h
  | .select m => (selection_parallel expected m).bind fun h => .pure h

theorem arguments_parallel (params : List Ty) : ∀ args, Parallel move before (arguments env params args)
    (arguments env params (Expr.movedList move args)) fun _ _ => True
  | [] => .pure trivial
  | arg :: args => (expr_parallel _ arg).bind fun _ => (arguments_parallel _ args).bind fun _ => .pure trivial

theorem selection_parallel (expected : Ty) : ∀ m, Parallel move before (selection env expected m)
    (selection env expected (m.moved move)) fun r r' => r.1 = r'.1
  | .mk span _ scrutinee arms => by
    refine (expr_parallel .unknown scrutinee).bind ?_
    rintro ⟨type, tree⟩ ⟨_, tree'⟩ rfl
    refine Parallel.scopes_bind fun table table' htable => ?_
    have henum : (scrutinee.moved move).enumName? table' = scrutinee.enumName? table := by
      rw [enumName?_moved, ← enumName?_outline, htable, enumName?_outline]
    rw [henum]
    refine (armList_parallel expected type (scrutinee.enumName? table) .unknown arms).bind ?_
    rintro ⟨joined, trees⟩ ⟨_, trees'⟩ rfl
    have hpatterns : (Arm.movedList move arms).map (·.pattern) = (arms.map (·.pattern)).map (·.moved move) := by
      simp [Arm.movedList_eq_map]
    rw [hpatterns, gap?_moved]
    cases env.enums.gap? type (scrutinee.enumName? table) (arms.map (·.pattern)) with
    | none => exact (Parallel.recordMatch span _).bind fun _ => .pure rfl
    | some => exact (Parallel.reportGap _ _).bind fun _ => (Parallel.recordMatch span _).bind fun _ => .pure rfl

theorem armList_parallel (expected type : Ty) (enumName : Option String) (sofar : Ty) :
    ∀ arms, Parallel move before (armList env expected type enumName sofar arms)
      (armList env expected type enumName sofar (Arm.movedList move arms)) fun r r' => r.1 = r'.1
  | [] => .pure rfl
  | arm :: arms => by
    simp only [Arm.movedList, armList, Arm.pattern_moved]
    exact (((Parallel.pattern env.enums type enumName arm.pattern).bind fun _ =>
      armBody_parallel expected sofar arm).inScope false .push .pop).bind fun {r _} hr =>
      hr ▸ (armList_parallel expected type enumName r.1 arms).bind fun h => .pure h

theorem armBody_parallel (expected sofar : Ty) : ∀ arm, Parallel move before (armBody env expected sofar arm)
    (armBody env expected sofar (arm.moved move)) fun r r' => r.1 = r'.1
  | .block _ _ body => (block_parallel body).bind fun _ => .pure rfl
  | .value _ _ value => (expr_parallel _ value).bind fun hvalue => .pure (by rw [hvalue])

theorem block_parallel : ∀ b, Parallel move before (block env b) (block env (b.moved move)) fun _ _ => True
  | .mk _ stmts => ((stmtList_parallel stmts).inScope true .push .pop).bind fun _ => .pure trivial

theorem stmtList_parallel : ∀ stmts, Parallel move before (stmtList env stmts)
    (stmtList env (Stmt.movedList move stmts)) fun _ _ => True
  | [] => .pure trivial
  | stmt :: stmts => (statement_parallel stmt).bind fun _ => (stmtList_parallel stmts).bind fun _ => .pure trivial

theorem chain_parallel : ∀ c, Parallel move before (chain env c) (chain env (c.moved move)) fun _ _ => True
  | .only _ condition body => (expr_parallel .bool condition).bind fun _ =>
    (block_parallel body).bind fun _ => .pure trivial
  | .orElse _ condition body other =>
    (expr_parallel .bool condition).bind fun _ => (block_parallel body).bind fun _ =>
    (block_parallel other).bind fun _ => .pure trivial
  | .orIf _ condition body next =>
    (expr_parallel .bool condition).bind fun _ => (block_parallel body).bind fun _ =>
    (chain_parallel next).bind fun _ => .pure trivial

theorem statement_parallel : ∀ stmt, Parallel move before (statement env stmt)
    (statement env (stmt.moved move)) fun _ _ => True
  | .block body => (block_parallel body).bind fun _ => .pure trivial
  | .decl _ _ _ nameSpan label init => by
    rw [Stmt.moved_decl, statement, statement, TypeLabel.text_moved, TypeLabel.span_moved]
    refine (Parallel.resolveType env.enums (some label)).bind ?_
    rintro ⟨type, enumName⟩ _ rfl
    exact Parallel.reported ((initializer_parallel _ init).bind fun _ => (Parallel.define _ nameSpan).bind fun _ =>
      (Parallel.tell _).bind fun _ => .pure trivial)
  | .cond c => (chain_parallel c).bind fun _ => .pure trivial
  | .loop _ condition body => (expr_parallel .bool condition).bind fun _ =>
    (block_parallel body).bind fun _ => .pure trivial
  | .select m => (selection_parallel .void m).bind fun _ => .pure trivial
  | .ret _ none => .reported (.pure trivial)
  | .ret _ (some value) => by
    simp only [Stmt.moved, statement, Expr.span_moved]
    exact .reported ((expr_parallel _ value).bind fun _ => .pure trivial)
  | .expr _ value => (expr_parallel .unknown value).bind fun _ => .pure trivial

theorem initializer_parallel (type : Ty) : ∀ init, Parallel move before (initializer env type init)
    (initializer env type (init.map (·.moved move))) fun _ _ => True
  | none => .pure trivial
  | some init => (expr_parallel type init).bind fun _ => .pure trivial

end

end Trees

theorem headType_parallel (enums : EnumTable) (declared : Bool) (label : Option TypeLabel) :
    Parallel move before (headType enums declared label) (headType enums declared (label.map (·.moved move))) Eq := by
  unfold headType
  rw [labelType_moved]
  exact .ite (.pure rfl) (.resolveType _ _)

theorem parameters_parallel (enums : EnumTable) (declared : Bool) (params : List Param) :
    Parallel move before (parameters enums declared params)
    (parameters enums declared (params.map (·.moved move))) Eq := by
  induction params with
  | nil => exact .pure rfl
  | cons param _ ih =>
    refine (headType_parallel enums declared (some param.label)).bind ?_
    rintro ⟨type, enumName⟩ _ rfl
    simp only [Param.moved, TypeLabel.text_moved]
    exact (Parallel.define _ param.span).bind fun _ => (Parallel.tell _).bind fun _ => ih

theorem function_parallel (enums : EnumTable) (f : FuncDef Unit) (declared : Bool) :
    Parallel move before (function enums f declared) (function enums (f.moved move) declared) fun _ _ => True := by
  refine (Parallel.tell _).bind fun _ => Parallel.push.bind fun _ => (headType_parallel enums declared f.result).bind ?_
  rintro r _ rfl
  exact (parameters_parallel enums declared f.params).bind fun _ => (block_parallel ⟨enums, r.1⟩ f.body).bind fun _ =>
    (Parallel.tell _).bind fun _ => .pure trivial

/-- Whether a definition is walked to its end or given up, the other walk fares alike. -/
theorem definition_follows (h : Follows move before s s') (enums : EnumTable) (f : FuncDef Unit) (declared : Bool) :
    Follows move before (definition enums f declared s).2 (definition enums (f.moved move) declared s').2 := by
  unfold definition
  rcases gives_or_stops (function enums f declared) s with ⟨checked, t, hgives⟩ | ⟨reason, t, hstops⟩
  · obtain ⟨_, t', hgives', -, ht⟩ := (function_parallel enums f declared).gives h hgives
    rw [hgives, hgives']
    exact ⟨ht.strict, by simp [ht.scopes], ht.log⟩
  · obtain ⟨_, t', hstops', rfl, ht⟩ := (function_parallel enums f declared).stops h hstops
    rw [hstops, hstops']
    exact ⟨ht.strict, by simp [ht.scopes], by simp [ht.log, addFinding, append, Log.moved, Finding.moved]⟩

theorem definitions_follow (enums : EnumTable) (defs : List (FuncDef Unit × Bool))
    (h : Follows move before s s') : Follows move before (definitions enums defs s).2
      (definitions enums (defs.map fun d => (d.1.moved move, d.2)) s').2 := by
  induction defs generalizing s s' with
  | nil => exact h
  | cons d _ ih => exact ih (definition_follows h enums d.1 d.2)

end Walk

section Header

variable (move : Pos → Pos)

def Header.moved (h : Header) : Header :=
  { h with
    funcs := h.funcs.map (·.moved move)
    defs := h.defs.map fun d => (d.1.moved move, d.2)
    scopes := h.scopes.map (·.moved move)
    log := h.log.moved move }

variable {move}

@[simp]
theorem Log.moved_addFinding (log : Log) (issue : Issue) (span : Span) :
    (log.addFinding issue span).moved move = (log.moved move).addFinding issue (span.moved move) := by
  simp [addFinding, Log.moved, Finding.moved]

@[simp]
theorem Log.moved_addSymbol (log : Log) (symbol : Symbol) :
    (log.addSymbol symbol).moved move = (log.moved move).addSymbol (symbol.moved move) := by
  simp [addSymbol, Log.moved]

@[simp]
theorem Log.moved_addEvent (log : Log) (event : Event) :
    (log.addEvent event).moved move = (log.moved move).addEvent event := rfl

namespace Header

theorem addEnum_moved (h : Header) (e : EnumDef) :
    (h.moved move).addEnum (e.moved move) = (h.addEnum e).moved move := by
  have hvariants (log : Log) (names : List String) :
      names.foldl (fun log variant => log.addFinding (.duplicateVariant e.name variant) (e.span.moved move))
        (log.moved move) =
        (names.foldl (fun log variant => log.addFinding (.duplicateVariant e.name variant) e.span) log).moved move :=
    foldl_hom (Log.moved move) fun log name => (Log.moved_addFinding log _ _).symm
  unfold addEnum
  by_cases hknown : h.enumNames.contains e.name = true
  · have hknown' : (h.moved move).enumNames.contains (e.moved move).name = true := hknown
    rw [if_pos hknown, if_pos hknown']
    simp [moved, EnumDef.moved]
  · have hknown' : ¬(h.moved move).enumNames.contains (e.moved move).name = true := hknown
    rw [if_neg hknown, if_neg hknown']
    simp [moved, EnumDef.moved, hvariants]

theorem addEnums_moved (es : List EnumDef) : (es.map (·.moved move)).foldl addEnum {} =
    (es.foldl addEnum {}).moved move := by
  rw [foldl_map]
  show es.foldl (fun h e => h.addEnum (e.moved move)) (({} : Header).moved move) = _
  exact foldl_hom (Header.moved move) addEnum_moved

theorem checkLabel_moved (enums : EnumTable) (log : Log) (label : Option TypeLabel) :
    checkLabel enums (log.moved move) (label.map (·.moved move)) = (checkLabel enums log label).moved move := by
  unfold checkLabel
  rw [Walk.labelFinding?_moved]
  cases enums.labelFinding? label with
  | none => rfl
  | some finding => exact (Log.moved_addFinding log finding.issue finding.span).symm

theorem checkParam_moved (enums : EnumTable) (log : Log) (param : Param) :
    checkParam enums (log.moved move) (param.moved move) = (checkParam enums log param).moved move := by
  have hlabel : checkLabel enums (log.moved move) (some (param.label.moved move)) =
      (checkLabel enums log (some param.label)).moved move := checkLabel_moved enums log (some param.label)
  have htype : enums.labelType (some (param.label.moved move)) = enums.labelType (some param.label) :=
    Walk.labelType_moved enums (some param.label)
  unfold checkParam
  simp only [Param.moved, hlabel, htype, TypeLabel.span_moved]
  by_cases hvoid : (enums.labelType (some param.label)).1 = .void
  · rw [if_pos hvoid, if_pos hvoid, Log.moved_addFinding]
  · rw [if_neg hvoid, if_neg hvoid]

theorem checkParams_moved (enums : EnumTable) (log : Log) (params : List Param) :
    (params.map (·.moved move)).foldl (checkParam enums) (log.moved move) =
      (params.foldl (checkParam enums) log).moved move := by
  rw [foldl_map]
  exact foldl_hom (Log.moved move) (checkParam_moved enums)

theorem symbol_moved (enums : EnumTable) (f : FuncDef Unit) :
    symbol enums (f.moved move) = (symbol enums f).moved move := by
  have hresult : enums.labelType (f.result.map (·.moved move)) = enums.labelType f.result :=
      Walk.labelType_moved enums f.result
  have hparam (param : Param) : enums.labelType (some (param.label.moved move)) = enums.labelType (some param.label) :=
    Walk.labelType_moved enums (some param.label)
  have htext : (f.result.map (·.moved move)).elim "" (·.text) = f.result.elim "" (·.text) := by
    cases f.result <;> simp
  simp [symbol, FuncDef.moved, Param.moved, Symbol.moved, hresult, hparam, htext]

theorem addFunc_moved (h : Header) (f : FuncDef Unit) :
    (h.moved move).addFunc (f.moved move) = (h.addFunc f).moved move := by
  have hissue : (h.moved move).nameIssue? f.name = h.nameIssue? f.name := by
    simp [nameIssue?, moved, Symbol.moved]
  unfold addFunc
  have hname : (f.moved move).name = f.name := rfl
  rw [hname, hissue]
  cases h.nameIssue? f.name with
  | some => simp [moved, FuncDef.moved]
  | none =>
    have hlog : (f.moved move).params.foldl (checkParam h.enums)
        (checkLabel h.enums (h.log.moved move) (f.moved move).result) = (f.params.foldl (checkParam h.enums)
        (checkLabel h.enums h.log f.result)).moved move := by
      rw [← checkParams_moved, ← checkLabel_moved]
      rfl
    have hsymbol : symbol h.enums (f.moved move) = (symbol h.enums f).moved move := symbol_moved h.enums f
    have hdeclared : ((symbol h.enums f).moved move).name = (symbol h.enums f).name := rfl
    simp [moved, hlog, hsymbol, hdeclared]

theorem ofProgram_moved (p : Program Unit) : ofProgram (p.moved move) = (ofProgram p).moved move := by
  have henums : (p.moved move).enums = p.enums.map (·.moved move) := by
    unfold Program.enums Program.moved
    rw [filterMap_map, map_filterMap]
    congr 1
    funext d
    cases d <;> rfl
  have hfuncs : (p.moved move).funcs = p.funcs.map (·.moved move) := by
    unfold Program.funcs Program.moved
    rw [filterMap_map, map_filterMap]
    congr 1
    funext d
    cases d <;> rfl
  unfold ofProgram
  rw [henums, hfuncs, addEnums_moved, foldl_map]
  exact foldl_hom (Header.moved move) addFunc_moved

end Header

/-- The analysis of a program goes by nothing that depends on places. -/
theorem Program.diagnostics_moved (p : Program Unit) (strict : Bool) :
    ((p.moved move).analyze strict).diagnostics = (p.analyze strict).diagnostics.map (·.moved move) := by
  have hfollows : Walk.Follows move {} ⟨strict, (Header.ofProgram p).scopes, (Header.ofProgram p).log⟩
      ⟨strict, ((Header.ofProgram p).moved move).scopes, ((Header.ofProgram p).moved move).log⟩ := by
    constructor
    · rfl
    · rw [Header.moved, Scopes.map_map]
      rfl
    · rfl
  have hend := Walk.definitions_follow (Header.ofProgram p).enums (Header.ofProgram p).defs hfollows
  unfold analyze
  rw [Header.ofProgram_moved]
  simp only [Header.moved] at hend ⊢
  rw [hend.log]
  simp [append, Log.moved]

end Header

end LocLang
