import LocLang.Proofs.Analysis.Steps

namespace LocLang

open List

/-- Whether an issue is an error even where matches need not be exhaustive. -/
def Issue.IsFatal (i : Issue) : Prop :=
  (i.kind ≠ .nonExhaustiveMatch && i.severity = .error) = true

theorem Issue.isFatal_of_aborts {i : Issue} (h : i.aborts = true) : i.IsFatal := by
  cases i <;> first | rfl | cases h

theorem Issue.IsFatal.severity_eq {i : Issue} (h : i.IsFatal) : i.severity = .error := by
  simp only [IsFatal, Bool.and_eq_true, decide_eq_true_eq] at h
  exact h.2

namespace Log

/-- Whether nothing in the log is fatal. -/
def Clean (log : Log) : Prop :=
  ∀ f ∈ log.findings, ¬f.issue.IsFatal

/-- Whether a log goes on where another one stops. -/
structure Extends (log log' : Log) : Prop where
  findings : log.findings <+: log'.findings
  symbols : log.symbols <+: log'.symbols
  matchTypes : log.matchTypes <+: log'.matchTypes
  events : log.events <+: log'.events

namespace Extends

@[refl]
theorem refl (log : Log) : log.Extends log :=
  ⟨prefix_rfl, prefix_rfl, prefix_rfl, prefix_rfl⟩

theorem trans {a b c : Log} (h : a.Extends b) (h' : b.Extends c) : a.Extends c :=
  ⟨h.findings.trans h'.findings, h.symbols.trans h'.symbols, h.matchTypes.trans h'.matchTypes, h.events.trans h'.events⟩

theorem clean {log log' : Log} (h : log.Extends log') (hclean : log'.Clean) : log.Clean :=
  fun f hf => hclean f (h.findings.subset hf)

end Extends

theorem extends_addFinding (log : Log) (issue : Issue) (span : Span) : log.Extends (log.addFinding issue span) :=
  ⟨prefix_append _ _, prefix_rfl, prefix_rfl, prefix_rfl⟩

theorem extends_addSymbol (log : Log) (symbol : Symbol) : log.Extends (log.addSymbol symbol) :=
  ⟨prefix_rfl, prefix_append _ _, prefix_rfl, prefix_rfl⟩

theorem extends_addMatchType (log : Log) (span : Span) (type : Ty) : log.Extends (log.addMatchType span type) :=
  ⟨prefix_rfl, prefix_rfl, prefix_append _ _, prefix_rfl⟩

theorem extends_addEvent (log : Log) (event : Event) : log.Extends (log.addEvent event) :=
  ⟨prefix_rfl, prefix_rfl, prefix_rfl, prefix_append _ _⟩

theorem Clean.not_isFatal_of_addFinding {log : Log} {issue : Issue} {span : Span}
    (hclean : (log.addFinding issue span).Clean) : ¬issue.IsFatal :=
  hclean ⟨issue, span⟩ (by simp [addFinding])

end Log

namespace Walk

variable {α β : Type} {x : Walk α}

/-- Whether a walk only adds to the log, and is given up only because of an error. -/
structure Honest (x : Walk α) : Prop where
  extends_of_gives : ∀ {s : State} {a s'}, x.Gives s a s' → s.log.Extends s'.log
  extends_of_stops : ∀ {s : State} {reason s'}, x.Stops s reason s' → s.log.Extends s'.log
  isFatal_of_stops : ∀ {s : State} {reason s'}, x.Stops s reason s' → reason.issue.IsFatal

namespace Honest

theorem bind {f : α → Walk β} (hx : Honest x) (hf : ∀ a, Honest (f a)) : Honest (x >>= f) where
  extends_of_gives h := by
    obtain ⟨a, s', hfirst, hrest⟩ := gives_bind.1 h
    exact (hx.extends_of_gives hfirst).trans ((hf a).extends_of_gives hrest)
  extends_of_stops h := by
    rcases stops_bind.1 h with hfirst | ⟨a, s', hfirst, hrest⟩
    · exact hx.extends_of_stops hfirst
    · exact (hx.extends_of_gives hfirst).trans ((hf a).extends_of_stops hrest)
  isFatal_of_stops h := by
    rcases stops_bind.1 h with hfirst | ⟨a, s', _, hrest⟩
    · exact hx.isFatal_of_stops hfirst
    · exact (hf a).isFatal_of_stops hrest

/-- A step that always goes on is honest if it keeps the log. -/
theorem of_step {value : State → α} {next : State → State}
    (hrun : ∀ s, x.run s = (.ok (value s), next s)) (hnext : ∀ s : State, s.log.Extends (next s).log) : Honest x where
  extends_of_gives {s _ _} h := by
    obtain ⟨-, rfl⟩ := (gives_of_run_eq (hrun s)).1 h
    exact hnext s
  extends_of_stops {s _ _} h := by
    rw [Stops, hrun] at h
    cases h
  isFatal_of_stops {s _ _} h := by
    rw [Stops, hrun] at h
    cases h

theorem pure (a : α) : Honest (pure a : Walk α) :=
  of_step (fun _ => rfl) fun _ => .refl _

theorem report (issue : Issue) (span : Span) : Honest (report issue span) :=
  of_step (fun _ => rfl) fun s => s.log.extends_addFinding issue span

theorem tell (event : Event) : Honest (tell event) :=
  of_step (fun _ => rfl) fun s => s.log.extends_addEvent event

theorem push : Honest push :=
  of_step (fun _ => rfl) fun _ => .refl _

theorem pop : Honest pop :=
  of_step (fun _ => rfl) fun _ => .refl _

theorem inScope (deferred : Bool) (hx : Honest x) : Honest (inScope deferred x) where
  extends_of_gives h := by
    obtain ⟨s1, hbody, rfl⟩ := gives_inScope.1 h
    exact (hx.extends_of_gives hbody :)
  extends_of_stops h := by
    obtain ⟨s1, hbody, rfl⟩ := stops_inScope.1 h
    have hextends := hx.extends_of_stops hbody
    cases deferred <;> exact hextends
  isFatal_of_stops h := by
    obtain ⟨s1, hbody, -⟩ := stops_inScope.1 h
    exact hx.isFatal_of_stops hbody

end Honest

theorem Steps.honest (h : Steps x) : Honest x := by
  induction h with
  | pure a => exact .pure a
  | bind _ _ ihx ihf => exact ihx.bind ihf
  | report _ span => exact .report _ span
  | reportGap gap span => exact .of_step (run_reportGap gap span) fun s => s.log.extends_addFinding _ span
  | giveUp abort =>
    refine ⟨fun h => absurd h gives_giveUp, fun h => ?_, fun h => ?_⟩ <;> cases h
    · exact .refl _
    · exact Issue.isFatal_of_aborts abort
  | tell event => exact .tell event
  | recordMatch span type => exact .of_step (fun _ => rfl) fun s => s.log.extends_addMatchType span type
  | scopes => exact .of_step (fun _ => rfl) fun _ => .refl _
  | declare symbol => exact .of_step (fun _ => rfl) fun s => s.log.extends_addSymbol symbol
  | inScope deferred _ ih => exact ih.inScope deferred

end Walk

end LocLang
