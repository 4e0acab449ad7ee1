import LocLang.Proofs.Analysis.Steps
import LocLang.Proofs.Scopes

namespace LocLang

/-- Whether a log adds findings to another one and none of them is a reason to give up. -/
def Log.Reports (log log' : Log) : Prop :=
  ∃ new, log'.findings = log.findings ++ new ∧ ∀ f ∈ new, f.issue.aborts = false

theorem Log.Reports.of_eq {log log' : Log} (h : log'.findings = log.findings) : log.Reports log' :=
  ⟨[], by simp [h], by simp⟩

theorem Log.Reports.trans {a b c : Log} (h : a.Reports b) (h' : b.Reports c) : a.Reports c := by
  obtain ⟨new, hnew, hcalm⟩ := h
  obtain ⟨new', hnew', hcalm'⟩ := h'
  refine ⟨new ++ new', by rw [hnew', hnew, List.append_assoc], fun f hf => ?_⟩
  rcases List.mem_append.1 hf with hf | hf
  · exact hcalm f hf
  · exact hcalm' f hf

namespace Walk

variable {α β : Type} {x : Walk α}

/-- Whether a walk keeps to the scopes that are open around it, and reports nothing that it could be given up for. -/
structure Contained (x : Walk α) : Prop where
  sameOutside : ∀ {s : State} {a : α} {s' : State}, x.Gives s a s' → s.scopes.inner ≠ [] →
    s.scopes.SameOutside s'.scopes
  base_eq : ∀ {s : State} {reason : Finding} {s' : State}, x.Stops s reason s' → s.scopes.inner ≠ [] →
    s'.scopes.base = s.scopes.base
  aborts : ∀ {s : State} {reason : Finding} {s' : State}, x.Stops s reason s' → reason.issue.aborts = true
  reports : ∀ {s : State} {a : α} {s' : State}, x.Gives s a s' → s.log.Reports s'.log
  reports_of_stops : ∀ {s : State} {reason : Finding} {s' : State}, x.Stops s reason s' → s.log.Reports s'.log

namespace Contained

theorem bind {f : α → Walk β} (hx : Contained x) (hf : ∀ a, Contained (f a)) : Contained (x >>= f) where
  sameOutside h hopen := by
    obtain ⟨a, s', hfirst, hrest⟩ := gives_bind.1 h
    have hsame := hx.sameOutside hfirst hopen
    exact hsame.trans ((hf a).sameOutside hrest hsame.open_right)
  base_eq h hopen := by
    rcases stops_bind.1 h with hfirst | ⟨a, s', hfirst, hrest⟩
    · exact hx.base_eq hfirst hopen
    · have hsame := hx.sameOutside hfirst hopen
      rw [(hf a).base_eq hrest hsame.open_right, hsame.base_eq]
  aborts h := by
    rcases stops_bind.1 h with hfirst | ⟨a, s', _, hrest⟩
    · exact hx.aborts hfirst
    · exact (hf a).aborts hrest
  reports h := by
    obtain ⟨a, s', hfirst, hrest⟩ := gives_bind.1 h
    exact (hx.reports hfirst).trans ((hf a).reports hrest)
  reports_of_stops h := by
    rcases stops_bind.1 h with hfirst | ⟨a, s', hfirst, hrest⟩
    · exact hx.reports_of_stops hfirst
    · exact (hx.reports hfirst).trans ((hf a).reports_of_stops hrest)

/-- A step that always goes on is contained if it changes at most the innermost scope. -/
theorem of_step {value : State → α} {next : State → State} (hrun : ∀ s, x.run s = (.ok (value s), next s))
    (hscopes : ∀ s : State, s.scopes.inner ≠ [] → s.scopes.SameOutside (next s).scopes)
    (hlog : ∀ s : State, s.log.Reports (next s).log) : Contained x where
  sameOutside {s _ _} h hopen := by
    obtain ⟨-, rfl⟩ := (gives_of_run_eq (hrun s)).1 h
    exact hscopes s hopen
  base_eq {s _ _} h := by
    rw [Stops, hrun] at h
    cases h
  aborts {s _ _} h := by
    rw [Stops, hrun] at h
    cases h
  reports {s _ _} h := by
    obtain ⟨-, rfl⟩ := (gives_of_run_eq (hrun s)).1 h
    exact hlog s
  reports_of_stops {s _ _} h := by
    rw [Stops, hrun] at h
    cases h

/-- What is walked in a scope of its own does not show in the scopes around it. -/
theorem inScope (deferred : Bool) (hx : Contained x) : Contained (inScope deferred x) where
  sameOutside h hopen := by
    obtain ⟨s1, hbody, rfl⟩ := gives_inScope.1 h
    have hsame := hx.sameOutside hbody (Scopes.push_inner_ne_nil _)
    rw [hsame.pop_eq_of_push]
    exact .refl hopen
  base_eq h _ := by
    obtain ⟨s1, hbody, rfl⟩ := stops_inScope.1 h
    have hbase := hx.base_eq hbody (Scopes.push_inner_ne_nil _)
    cases deferred <;> exact hbase
  aborts h := by
    obtain ⟨s1, hbody, -⟩ := stops_inScope.1 h
    exact hx.aborts hbody
  reports h := by
    obtain ⟨s1, hbody, rfl⟩ := gives_inScope.1 h
    have hreports := hx.reports hbody
    exact hreports
  reports_of_stops h := by
    obtain ⟨s1, hbody, rfl⟩ := stops_inScope.1 h
    have hreports := hx.reports_of_stops hbody
    cases deferred <;> exact hreports

end Contained

theorem Steps.contained (h : Steps x) : Contained x := by
  induction h with
  | pure a | tell event | recordMatch span type | scopes =>
    exact .of_step (fun _ => rfl) (fun _ => .refl) fun _ => .of_eq rfl
  | bind _ _ ihx ihf => exact ihx.bind ihf
  | @report issue plain span =>
    exact .of_step (fun _ => rfl) (fun _ => .refl) fun _ =>
      ⟨[⟨issue, span⟩], rfl, by simpa using issue.aborts_of_plain plain⟩
  | reportGap gap span =>
    exact .of_step (run_reportGap gap span) (fun _ => .refl) fun _ => ⟨[_], rfl, by simp [Issue.aborts]⟩
  | giveUp abort =>
    refine ⟨fun h => absurd h gives_giveUp, fun h _ => ?_, fun h => ?_, fun h => absurd h gives_giveUp,
      fun h => ?_⟩ <;> cases h
    · rfl
    · exact abort
    · exact .of_eq rfl
  | declare => exact .of_step (fun _ => rfl) (fun _ hopen => Scopes.sameOutside_declare hopen _ _) fun _ => .of_eq rfl
  | inScope deferred _ ih => exact ih.inScope deferred

end Walk

end LocLang
