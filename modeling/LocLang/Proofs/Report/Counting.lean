import LocLang.Report.SymbolTable

namespace LocLang

/-- Whether excerpts of the file that reports are about can be shown. -/
def Subject.CanShow (subject : Subject) : Prop :=
  ∀ path bytes, subject.file = some (path, bytes) → ∀ line ∈ ByteLine.split bytes, line.isTooLong = false

namespace Report

variable {α β : Type} {level : LogLevel} {m n : Nat} {subject : Subject} {span : Option Span} {text : String}
  {x : Report Unit} {c c' : Console}

/-- Whether a report comes to its end, and what it gives there. -/
def Gives (x : Report α) (c : Console) (a : α) (c' : Console) : Prop :=
  x.run.run c = (.ok a, c')

theorem Gives.bind {x : Report α} {f : α → Report β} {c'' : Console} {a : α} {b : β} (hx : x.Gives c a c')
    (hf : (f a).Gives c' b c'') : (x >>= f).Gives c b c'' := by
  unfold Gives at hx hf ⊢
  rw [ExceptT.run_bind, StateT.run_bind, hx]
  exact hf

theorem gives_pure (a : α) (c : Console) : (pure a : Report α).Gives c a c :=
  rfl

theorem gives_get (c : Console) : (get : Report Console).Gives c c c :=
  rfl

theorem gives_modify (f : Console → Console) (c : Console) : (modify f : Report Unit).Gives c () (f c) :=
  rfl

theorem anyErrors_eq_false_iff : c.anyErrors = false ↔ c.errors = 0 := by
  rw [Console.anyErrors, decide_eq_false_iff_not, Nat.not_lt, Nat.le_zero]

/-- After an error nothing more is done. -/
theorem Gives.stop {k : Report α} (hx : x.Gives c () c') (herrors : c'.errors ≠ 0) (a : α) :
    Gives (do
      x
      if (← get).anyErrors then
        return a
      k) c a c' := by
  refine hx.bind ((gives_get c').bind ?_)
  rw [if_pos (Bool.of_not_eq_false fun h => herrors (anyErrors_eq_false_iff.1 h))]
  exact gives_pure a c'

theorem Gives.proceed {k : Report α} {c'' : Console} (hx : x.Gives c () c') (herrors : c'.errors = 0) {a b : α}
    (hk : k.Gives c' b c'') :
    Gives (do
      x
      if (← get).anyErrors then
        return a
      k) c b c'' := by
  refine hx.bind ((gives_get c').bind ?_)
  rw [anyErrors_eq_false_iff.2 herrors]
  exact hk

/-- Whether a report comes to its end and adds the given number of errors, as long as the console has the level. -/
def Counts (level : LogLevel) (n : Nat) (x : Report Unit) : Prop :=
  ∀ c : Console, c.level = level → ∃ c', x.Gives c () c' ∧ c'.errors = c.errors + n ∧ c'.level = level

theorem counts_pure : Counts level 0 (pure ()) :=
  fun c hlevel => ⟨c, gives_pure () c, rfl, hlevel⟩

theorem Counts.seq {y : Report Unit} (hx : Counts level m x) (hy : Counts level n y) :
    Counts level (m + n) (do x; y) := by
  intro c hlevel
  obtain ⟨c', hgives, herrors, hlevel'⟩ := hx c hlevel
  obtain ⟨c'', hgives', herrors', hlevel''⟩ := hy c' hlevel'
  exact ⟨c'', hgives.bind hgives', by omega, hlevel''⟩

theorem Counts.quietly {y : Report Unit} (hx : Counts level 0 x) (hy : Counts level n y) : Counts level n (do x; y) :=
  Nat.zero_add n ▸ hx.seq hy

theorem counts_get {f : Console → Report Unit} (h : ∀ c : Console, c.level = level → Counts level n (f c)) :
    Counts level n (get >>= f) := by
  intro c hlevel
  obtain ⟨c', hgives, hc'⟩ := h c hlevel c hlevel
  exact ⟨c', (gives_get c).bind hgives, hc'⟩

theorem counts_modify {f : Console → Console} (herrors : ∀ c, (f c).errors = c.errors + n)
    (hlevel : ∀ c, (f c).level = c.level) : Counts level n (modify f) :=
  fun c h => ⟨f c, gives_modify f c, herrors c, by rw [hlevel, h]⟩

theorem counts_printLines (lines : List String) : Counts level 0 (printLines lines) := by
  induction lines with
  | nil => exact counts_pure
  | cons line _ ih =>
    have hline : Counts level 0 (printLine line) := counts_modify (fun _ => rfl) fun _ => rfl
    exact hline.quietly ih

theorem counts_excerpt {path : String} {bytes : List UInt8} {span : Span}
    (h : ∀ line ∈ ByteLine.split bytes, line.isTooLong = false) : Counts level 0 (excerpt path bytes span) := by
  have hany : ((ByteLine.split bytes).any (·.isTooLong)) = false := by
    rw [List.any_eq_false]
    exact fun line hline => by simp [h line hline]
  simp only [excerpt, hany, Bool.false_eq_true, if_false]
  exact counts_printLines _

theorem counts_message {label : String} (h : span = none ∨ subject.CanShow) :
    Counts level 0 (message label subject span text) := by
  cases span with
  | none => exact counts_printLines _
  | some =>
    refine (counts_printLines _).quietly ?_
    cases hfile : subject.file with
    | none => exact counts_pure
    | some file => exact counts_excerpt (h.resolve_left (by simp) file.1 file.2 hfile)

/-- An error counts as one, whether or not it is shown. -/
theorem counts_error (h : span = none ∨ (level.showsErrors → subject.CanShow)) :
    Counts level 1 (error subject span text) := by
  have hcount : Counts level 1 (modify fun c => { c with errors := c.errors + 1 }) :=
      counts_modify (fun _ => rfl) fun _ => rfl
  refine hcount.seq (n := 0) (counts_get fun c hlevel => ?_)
  split
  · rename_i hshows
    rw [hlevel] at hshows
    exact counts_message (h.imp_right fun hshow => hshow hshows)
  · exact counts_pure

theorem showsErrors_of_showsWarnings (h : level.showsWarnings) : level.showsErrors := by
  rw [LogLevel.showsWarnings, decide_eq_true_iff] at h
  rw [LogLevel.showsErrors, decide_eq_true_iff]
  exact Int.lt_trans (by decide) h

theorem counts_warning (h : level.showsErrors → subject.CanShow) : Counts level 0 (warning subject span text) := by
  have hcount : Counts level 0 (modify fun c => { c with warnings := c.warnings + 1 }) :=
      counts_modify (fun _ => rfl) fun _ => rfl
  refine hcount.quietly (counts_get fun c hlevel => ?_)
  split
  · rename_i hshows
    rw [hlevel] at hshows
    exact counts_message (.inr (h (showsErrors_of_showsWarnings hshows)))
  · exact counts_pure

theorem counts_diagnostics (h : level.showsErrors → subject.CanShow) (ds : List Diagnostic) :
    Counts level (ds.filter (·.isError)).length (diagnostics subject ds) := by
  induction ds with
  | nil => exact counts_pure
  | cons d _ ih =>
    rw [diagnostics, diagnostic]
    by_cases herror : d.isError
    · rw [if_pos herror, List.filter_cons_of_pos herror, List.length_cons, Nat.add_comm]
      exact (counts_error (.inr h)).seq ih
    · rw [if_neg herror, List.filter_cons_of_neg herror]
      exact (counts_warning h).quietly ih

theorem counts_failure {path : String} : Counts level 1 (failure path text) :=
  counts_error (.inl rfl)

theorem counts_sourceError (h : level.showsErrors → subject.CanShow) (e : SourceError) :
    Counts level 1 (sourceError subject e) := by
  cases e with
  | malformed => exact counts_error (.inr h)
  | unreadable => exact counts_failure

/-- The report on an analysis counts its errors. -/
theorem counts_analysis (h : level.showsErrors → subject.CanShow) (a : Analysis) :
    Counts level a.errorCount (analysis subject a) := by
  refine counts_get fun c _ => ?_
  have hdiagnostics := counts_diagnostics h a.diagnostics
  split
  · refine (counts_printLines _).quietly ?_
    split
    · exact (counts_printLines _).quietly hdiagnostics
    · exact hdiagnostics
  · exact hdiagnostics

end Report

end LocLang
