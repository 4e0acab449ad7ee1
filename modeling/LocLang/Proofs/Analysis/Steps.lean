import LocLang.Analysis

namespace LocLang

/-- Whether a walk is given up for the issue. -/
def Issue.aborts : Issue → Bool
  | undefinedSymbol _ | notAFunction _ => true
  | _ => false

/-- Whether walks report the issue and go on, however strict they are: it is no reason to give up, and its severity
    is its own. -/
def Issue.plain : Issue → Bool
  | undefinedSymbol _ | notAFunction _ | notExhaustive _ _ => false
  | _ => true

theorem Issue.aborts_of_plain {i : Issue} (h : i.plain = true) : i.aborts = false := by
  cases i <;> first | rfl | cases h

namespace Walk

variable {α β : Type} {x : Walk α} {table : Scopes Symbol} {a : α}

/-- Whether a walk goes from one state to another and ends with the value `a`. -/
def Gives (x : Walk α) (s : State) (a : α) (s' : State) : Prop :=
  x.run s = (.ok a, s')

theorem Gives.unique {s s1 s2 : State} {b : α} (ha : x.Gives s a s1) (hb : x.Gives s b s2) : a = b ∧ s1 = s2 := by
  cases ha.symm.trans hb
  exact ⟨rfl, rfl⟩

/-- Whether a walk from the state `s` is given up in the state `s'`. -/
def Stops (x : Walk α) (s : State) (reason : Finding) (s' : State) : Prop :=
  x.run s = (.error reason, s')

theorem gives_or_stops (x : Walk α) (s : State) : (∃ a s', x.Gives s a s') ∨ (∃ reason s', x.Stops s reason s') := by
  cases hrun : x.run s with
  | mk result s' =>
    cases result with
    | ok a => exact .inl ⟨a, s', hrun⟩
    | error reason => exact .inr ⟨reason, s', hrun⟩

theorem run_bind (x : Walk α) (f : α → Walk β) (s : State) :
    (x >>= f).run s = match x.run s with
      | (.ok a, s') => (f a).run s'
      | (.error reason, s') => (.error reason, s') := by
  simp only [ExceptT.bind, ExceptT.run, ExceptT.mk, bind, StateT.bind]
  obtain ⟨result, s'⟩ := x s
  cases result <;> rfl

theorem gives_bind {f : α → Walk β} {s s'' : State} {b : β} :
    (x >>= f).Gives s b s'' ↔ ∃ a s', x.Gives s a s' ∧ (f a).Gives s' b s'' := by
  simp only [Gives, run_bind]
  obtain ⟨result, s'⟩ := x.run s
  constructor
  · intro h
    cases result with
    | ok a => exact ⟨a, s', rfl, h⟩
    | error => cases h
  · rintro ⟨a, s1, hx, hf⟩
    cases hx
    exact hf

theorem stops_bind {f : α → Walk β} {s s'' : State} {reason : Finding} : (x >>= f).Stops s reason s'' ↔
      x.Stops s reason s'' ∨ ∃ a s', x.Gives s a s' ∧ (f a).Stops s' reason s'' := by
  simp only [Gives, Stops, run_bind]
  obtain ⟨result, s'⟩ := x.run s
  constructor
  · intro h
    cases result with
    | ok a => exact .inr ⟨a, s', rfl, h⟩
    | error => cases h; exact .inl rfl
  · rintro (h | ⟨a, s1, hx, hf⟩)
    · cases h
      rfl
    · cases hx
      exact hf

theorem gives_of_run_eq {s s1 s' : State} {b : α} (h : x.run s = (.ok a, s1)) : x.Gives s b s' ↔ b = a ∧ s' = s1 := by
  rw [Gives, h]
  constructor
  · intro heq
    cases heq
    exact ⟨rfl, rfl⟩
  · rintro ⟨rfl, rfl⟩
    rfl

section Steps

variable {s s' : State} {u : Unit} {span : Span}

@[simp]
theorem gives_pure {b : α} : (pure a : Walk α).Gives s b s' ↔ b = a ∧ s' = s :=
  gives_of_run_eq rfl

theorem gives_map {f : α → β} {b : β} : (x >>= fun a => pure (f a)).Gives s b s' ↔ ∃ a, x.Gives s a s' ∧ b = f a := by
  simp only [gives_bind, gives_pure]
  grind

theorem run_reportGap (gap : Gap) (span : Span) (s : State) : (reportGap gap span).run s =
    (.ok (), { s with log := s.log.addFinding (.notExhaustive (if s.strict then .error else .warning) gap) span }) := by
  obtain ⟨strict, scopes, log⟩ := s
  cases strict <;> rfl

@[simp]
theorem gives_report {issue : Issue} : (report issue span).Gives s u s' ↔
    s' = { s with log := s.log.addFinding issue span } :=
  (gives_of_run_eq rfl).trans (by simp)

theorem gives_reportGap {gap : Gap} : (reportGap gap span).Gives s u s' ↔
    s' = { s with log := s.log.addFinding (.notExhaustive (if s.strict then .error else .warning) gap) span } := by
  exact (gives_of_run_eq (run_reportGap gap span s)).trans (by simp)

@[simp]
theorem gives_giveUp {issue : Issue} : ¬(giveUp issue span : Walk α).Gives s a s' := by
  intro h
  cases h

@[simp]
theorem gives_tell {event : Event} : (tell event).Gives s u s' ↔ s' = { s with log := s.log.addEvent event } :=
  (gives_of_run_eq rfl).trans (by simp)

@[simp]
theorem gives_recordMatch {type : Ty} :
    (recordMatch span type).Gives s u s' ↔ s' = { s with log := s.log.addMatchType span type } :=
  (gives_of_run_eq rfl).trans (by simp)

@[simp]
theorem gives_scopes : scopes.Gives s table s' ↔ table = s.scopes ∧ s' = s :=
  gives_of_run_eq rfl

@[simp]
theorem gives_push : push.Gives s u s' ↔ s' = { s with scopes := s.scopes.push } :=
  (gives_of_run_eq rfl).trans (by simp)

end Steps

/-- How a part of a walk in a scope of its own ends: the scope is closed unless the walk is given up and the closing
    is not deferred. -/
theorem run_inScope (deferred : Bool) (x : Walk α) (s : State) :
    (inScope deferred x).run s = match x.run { s with scopes := s.scopes.push } with
      | (.ok a, s') => (.ok a, { s' with scopes := s'.scopes.pop })
      | (.error reason, s') =>
        (.error reason, if deferred then { s' with scopes := s'.scopes.pop } else s') := by
  have hpush : (inScope deferred x).run s = (if deferred then ExceptT.mk do
        let outcome ← x.run
        modify fun s => { s with scopes := s.scopes.pop }
        pure outcome
      else do
        let a ← x
        pop
        pure a : Walk α).run { s with scopes := s.scopes.push } := rfl
  rw [hpush]
  generalize { s with scopes := s.scopes.push : State } = t
  cases deferred with
  | false =>
    rw [if_neg (by decide), run_bind]
    obtain ⟨result, s'⟩ := x.run t
    cases result <;> rfl
  | true =>
    simp only [if_true, ExceptT.run, ExceptT.mk, bind, StateT.bind]
    obtain ⟨result, s'⟩ := x t
    cases result <;> rfl

theorem gives_inScope {deferred : Bool} {s s' : State} : (inScope deferred x).Gives s a s' ↔
      ∃ s1, x.Gives { s with scopes := s.scopes.push } a s1 ∧ s' = { s1 with scopes := s1.scopes.pop } := by
  simp only [Gives, run_inScope]
  obtain ⟨result, s1⟩ := x.run { s with scopes := s.scopes.push }
  constructor
  · intro h
    cases result <;> cases h
    exact ⟨s1, rfl, rfl⟩
  · rintro ⟨_, h, rfl⟩
    cases h
    rfl

theorem stops_inScope {deferred : Bool} {s s' : State} {reason : Finding} : (inScope deferred x).Stops s reason s' ↔
      ∃ s1, x.Stops { s with scopes := s.scopes.push } reason s1 ∧
        s' = if deferred then { s1 with scopes := s1.scopes.pop } else s1 := by
  simp only [Stops, run_inScope]
  obtain ⟨result, s1⟩ := x.run { s with scopes := s.scopes.push }
  constructor
  · intro h
    cases result <;> cases h
    exact ⟨s1, rfl, rfl⟩
  · rintro ⟨_, h, rfl⟩
    cases h
    rfl

/-- Whether two walks from states that are related by `S` end alike: with values that are related by `R`, or for reasons
    that are related by `N`. -/
structure Beside (S : State → State → Prop) (N : Finding → Finding → Prop) (x : Walk α) (x' : Walk β)
    (R : α → β → Prop) : Prop where
  gives : ∀ {s s' t : State} {a : α}, S s s' → x.Gives s a t → ∃ b t', x'.Gives s' b t' ∧ R a b ∧ S t t'
  stops : ∀ {s s' t : State} {reason : Finding}, S s s' → x.Stops s reason t →
    ∃ reason' t', x'.Stops s' reason' t' ∧ N reason reason' ∧ S t t'

namespace Beside

variable {S : State → State → Prop} {N : Finding → Finding → Prop} {x' : Walk β} {R : α → β → Prop}

theorem bind {γ δ : Type} {g : α → Walk γ} {g' : β → Walk δ} {Q : γ → δ → Prop} (hx : Beside S N x x' R)
    (hg : ∀ {a b}, R a b → Beside S N (g a) (g' b) Q) : Beside S N (x >>= g) (x' >>= g') Q where
  gives hs hgives := by
    obtain ⟨a, t1, hfirst, hrest⟩ := gives_bind.1 hgives
    obtain ⟨b, t1', hfirst', hab, ht1⟩ := hx.gives hs hfirst
    obtain ⟨c, t', hrest', hc, ht⟩ := (hg hab).gives ht1 hrest
    exact ⟨c, t', gives_bind.2 ⟨b, t1', hfirst', hrest'⟩, hc, ht⟩
  stops hs hstops := by
    rcases stops_bind.1 hstops with hfirst | ⟨a, t1, hfirst, hrest⟩
    · obtain ⟨reason', t', hfirst', ht⟩ := hx.stops hs hfirst
      exact ⟨reason', t', stops_bind.2 (.inl hfirst'), ht⟩
    · obtain ⟨b, t1', hfirst', hab, ht1⟩ := hx.gives hs hfirst
      obtain ⟨reason', t', hrest', ht⟩ := (hg hab).stops ht1 hrest
      exact ⟨reason', t', stops_bind.2 (.inr ⟨b, t1', hfirst', hrest'⟩), ht⟩

/-- Steps that always go on. -/
theorem of_step {value : State → α} {value' : State → β} {next next' : State → State}
    (hrun : ∀ s, x.run s = (.ok (value s), next s)) (hrun' : ∀ s, x'.run s = (.ok (value' s), next' s))
    (hstep : ∀ {s s'}, S s s' → R (value s) (value' s') ∧ S (next s) (next' s')) : Beside S N x x' R where
  gives {s s' _ _} hs hgives := by
    obtain ⟨rfl, rfl⟩ := (gives_of_run_eq (hrun s)).1 hgives
    exact ⟨_, _, hrun' s', hstep hs⟩
  stops {s _ _ _} _ hstops := by
    rw [Stops, hrun] at hstops
    cases hstops

theorem pure {a : α} {b : β} (hab : R a b) : Beside S N (pure a) (pure b) R :=
  of_step (fun _ => rfl) (fun _ => rfl) fun hs => ⟨hab, hs⟩

theorem giveUp {issue : Issue} {span span' : Span} (h : N ⟨issue, span⟩ ⟨issue, span'⟩) :
    Beside S N (giveUp issue span : Walk α) (giveUp issue span' : Walk β) R where
  gives _ hgives := absurd hgives gives_giveUp
  stops hs hstops := by
    cases hstops
    exact ⟨_, _, rfl, h, hs⟩

theorem inScope (deferred : Bool) (hx : Beside S N x x' R)
    (hpush : ∀ {s s' : State}, S s s' → S { s with scopes := s.scopes.push } { s' with scopes := s'.scopes.push })
    (hpop : ∀ {s s' : State}, S s s' → S { s with scopes := s.scopes.pop } { s' with scopes := s'.scopes.pop }) :
    Beside S N (inScope deferred x) (inScope deferred x') R where
  gives hs hgives := by
    obtain ⟨t1, hbody, rfl⟩ := gives_inScope.1 hgives
    obtain ⟨b, t1', hbody', hab, ht⟩ := hx.gives (hpush hs) hbody
    exact ⟨b, _, gives_inScope.2 ⟨t1', hbody', rfl⟩, hab, hpop ht⟩
  stops hs hstops := by
    obtain ⟨t1, hbody, rfl⟩ := stops_inScope.1 hstops
    obtain ⟨reason', t1', hbody', hreason, ht⟩ := hx.stops (hpush hs) hbody
    refine ⟨reason', _, stops_inScope.2 ⟨t1', hbody', rfl⟩, hreason, ?_⟩
    cases deferred with
    | false => exact ht
    | true => exact hpop ht

end Beside

/-- Whether a walk is made of the usual steps. -/
inductive Steps : {α : Type} → Walk α → Prop
  | pure {α : Type} (a : α) : Steps (pure a)
  | bind {α β : Type} {x : Walk α} {f : α → Walk β} (first : Steps x) (rest : ∀ a, Steps (f a)) : Steps (x >>= f)
  | report {issue : Issue} (plain : issue.plain = true) (span : Span) : Steps (report issue span)
  | giveUp {α : Type} {issue : Issue} (abort : issue.aborts = true) (span : Span) : Steps (giveUp issue span : Walk α)
  | tell (event : Event) : Steps (tell event)
  | recordMatch (span : Span) (type : Ty) : Steps (recordMatch span type)
  | scopes : Steps scopes
  | reportGap (gap : Gap) (span : Span) : Steps (reportGap gap span)
  | declare (symbol : Symbol) : Steps (modify fun s =>
      { s with scopes := s.scopes.declare symbol.name symbol, log := s.log.addSymbol symbol } : Walk Unit)
  | inScope {α : Type} (deferred : Bool) {x : Walk α} (inside : Steps x) : Steps (inScope deferred x)

section Issues

variable {issue : Issue}

theorem plain_of_declarationIssue? {symbol : Symbol} (h : declarationIssue? table symbol = some issue) :
    issue.plain = true := by
  unfold declarationIssue? at h
  repeat' split at h
  all_goals cases h <;> rfl

theorem plain_of_labelFinding? {enums : EnumTable} {label : Option TypeLabel} {finding : Finding}
    (h : enums.labelFinding? label = some finding) : finding.issue.plain = true := by
  unfold EnumTable.labelFinding? at h
  repeat' split at h
  all_goals cases h <;> rfl

theorem plain_of_patternIssue? {type : Ty} {value : Literal} (h : value.patternIssue? type = some issue) :
    issue.plain = true := by
  unfold Literal.patternIssue? at h
  repeat' split at h
  all_goals cases h <;> rfl

theorem plain_of_variantIssue? {enums : EnumTable} {enumName variant : String}
    (h : enums.variantIssue? enumName variant = some issue) : issue.plain = true := by
  unfold EnumTable.variantIssue? at h
  repeat' split at h
  all_goals cases h <;> rfl

theorem plain_of_assignIssue? {symbol : Symbol} (h : assignIssue? symbol = some issue) : issue.plain = true := by
  unfold assignIssue? at h
  repeat' split at h
  all_goals cases h <;> rfl

end Issues

namespace Steps

theorem ite {c : Prop} [Decidable c] {y : Walk α} (hx : Steps x) (hy : Steps y) : Steps (if c then x else y) := by
  split
  · exact hx
  · exact hy

theorem lookup (name : String) (span : Span) : Steps (lookup name span) := by
  refine scopes.bind fun table => ?_
  split
  · exact pure _
  · exact giveUp rfl _

theorem reportIf {issue : Option Issue} (hplain : ∀ i, issue = some i → i.plain = true) (span : Span) :
    Steps (reportIf issue span) := by
  cases issue with
  | some issue => exact report (hplain issue rfl) _
  | none => exact pure _

theorem define (symbol : Symbol) (span : Span) : Steps (define symbol span) := by
  refine scopes.bind fun table => ?_
  split
  · next issue hissue =>
    exact (report (plain_of_declarationIssue? hissue) _).bind fun _ =>
      declare { symbol with depth := table.depth, span := some span }
  · exact declare { symbol with depth := table.depth, span := some span }

theorem resolveType (enums : EnumTable) (label : Option TypeLabel) : Steps (resolveType enums label) := by
  rw [Walk.resolveType]
  split
  · next finding hfinding => exact (report (plain_of_labelFinding? hfinding) _).bind fun _ => pure _
  · exact pure _

theorem literal (expected : Ty) (span : Span) (value : Literal) : Steps (literal expected span value) := by
  cases value with
  | int =>
    exact ite (pure _) (ite ((report rfl _).bind fun _ => pure _) (pure _))
  | float | bool => exact pure _

theorem pattern (enums : EnumTable) (type : Ty) (enumName : Option String) (p : Pattern) :
    Steps (pattern enums type enumName p) := by
  cases p with
  | wildcard => exact pure _
  | literal =>
    rw [Walk.pattern]
    split
    · next issue hissue => exact report (plain_of_patternIssue? hissue) _
    · exact pure _
  | bind => exact define _ _
  | variant span name variant args =>
    rw [Walk.pattern]
    split
    · next issue hissue => exact report (plain_of_variantIssue? hissue) _
    · have hcount : Steps (if 0 < (args.getD []).length then
          Walk.report (.patternArity name variant (args.getD []).length) span else Pure.pure ()) :=
        ite (report rfl _) (pure _)
      split
      · exact ite ((report rfl _).bind fun _ => hcount) hcount
      · exact hcount

theorem headType (enums : EnumTable) (declared : Bool) (label : Option TypeLabel) :
    Steps (headType enums declared label) :=
  ite (pure _) (resolveType _ _)

theorem parameters (enums : EnumTable) (declared : Bool) (params : List Param) :
    Steps (parameters enums declared params) := by
  induction params with
  | nil => exact pure _
  | cons _ _ ih =>
    exact (headType _ _ _).bind fun _ => (define _ _).bind fun _ => (tell _).bind fun _ => ih

/-- No step makes a walk more or less strict. -/
theorem strict_run (h : Steps x) (s : State) : (x.run s).2.strict = s.strict := by
  induction h generalizing s with
  | bind _ _ ihx ihf =>
    rw [run_bind, ← ihx s]
    split
    · next a s' hrun => rw [ihf, hrun]
    · next reason s' hrun => rw [hrun]
  | inScope deferred _ ih =>
    have hinside := ih { s with scopes := s.scopes.push }
    rw [run_inScope]
    split
    · next hrun =>
      rw [hrun] at hinside
      exact hinside
    · next hrun =>
      rw [hrun] at hinside
      cases deferred <;> exact hinside
  | reportGap => rw [run_reportGap]
  | pure | report | giveUp | tell | recordMatch | scopes | declare => rfl

end Steps

end Walk

end LocLang
