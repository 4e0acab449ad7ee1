import LocLang.Proofs.Build.Phases
import LocLang.Proofs.Lowering.Program
import LocLang.Proofs.Report.Counting
import Mathlib.Data.List.Forall2

namespace LocLang.Build

open Report List

variable {p : Program Unit}

section Sources

variable (files : FileTree) (profile : Profile) (source : SourceFile)

def program? : Option (Program Unit) :=
  (parse files source).outcome.toOption

def errorsIn : List Diagnostic :=
  ((program? files source).map fun p => (p.analyze profile.strict).errors).getD []

def code? : Option IrModule :=
  (program? files source).bind fun p => ((p.analyze profile.strict).lower
    (profile.target (Path.base source.path))).toOption

end Sources

variable {α β ε : Type} {files : FileTree} {profile : Profile} {sources : List SourceFile} {level : LogLevel}
    {source : SourceFile}


theorem toOption_eq_some {x : Except ε α} {a : α} : x.toOption = some a ↔ x = .ok a := by
  cases x <;> simp [Except.toOption]

theorem toOption_eq_none {x : Except ε α} : x.toOption = none ↔ ∃ e, x = .error e := by
  cases x <;> simp [Except.toOption]

theorem successes_of_ok {s : Staged (Except ε α)} {a : α} (h : s.outcome = .ok a) (rest : List (Staged (Except ε α))) :
    successes (s :: rest) = (s.map fun _ => a) :: successes rest := by
  rw [successes, filterMap_cons_some (by simp only [h]; rfl)]
  rfl

theorem successes_of_error {s : Staged (Except ε α)} {e : ε} (h : s.outcome = .error e)
    (rest : List (Staged (Except ε α))) : successes (s :: rest) = successes rest := by
  rw [successes, filterMap_cons_none (by simp only [h])]
  rfl

theorem source_parse (files : FileTree) (source : SourceFile) : (parse files source).source = source := by
  rw [parse]
  split <;> rfl

theorem analyzed_of_some (h : program? files source = some p) (rest : List SourceFile) :
      analyzed files profile (source :: rest) = ((parse files source).map fun _ => p.analyze profile.strict) :: analyzed
      files profile rest := by
  rw [analyzed, parsed, map_cons, successes_of_ok (toOption_eq_some.1 h), map_cons]
  rfl

theorem analyzed_of_none (h : program? files source = none) (rest : List SourceFile) :
    analyzed files profile (source :: rest) = analyzed files profile rest := by
  obtain ⟨e, he⟩ := toOption_eq_none.1 h
  rw [analyzed, parsed, map_cons, successes_of_error he]
  rfl

theorem flatMap_errors (files : FileTree) (profile : Profile) (sources : List SourceFile) :
    (analyzed files profile sources).flatMap (·.outcome.errors) = sources.flatMap (errorsIn files profile) := by
  induction sources with
  | nil => rfl
  | cons source _ ih =>
    rw [flatMap_cons, ← ih, errorsIn]
    cases hprogram : program? files source with
    | none => rw [analyzed_of_none hprogram, Option.map_none, Option.getD_none, nil_append]
    | some => rw [analyzed_of_some hprogram, flatMap_cons, Option.map_some, Option.getD_some, Staged.map]

theorem exists_of_mem_analyzed {s : Staged Analysis} (h : s ∈ analyzed files profile sources) :
    ∃ source ∈ sources, s.subject = (parse files source).subject := by
  induction sources with
  | nil => cases h
  | cons source _ ih =>
    cases hprogram : program? files source with
    | none =>
      rw [analyzed_of_none hprogram] at h
      obtain ⟨other, hother, hsubject⟩ := ih h
      exact ⟨other, mem_cons_of_mem _ hother, hsubject⟩
    | some =>
      rw [analyzed_of_some hprogram] at h
      rcases mem_cons.1 h with rfl | h
      · exact ⟨source, mem_cons_self, rfl⟩
      · obtain ⟨other, hother, hsubject⟩ := ih h
        exact ⟨other, mem_cons_of_mem _ hother, hsubject⟩

/-- Programs without errors have code. -/
theorem exists_code (hprogram : program? files source = some p) (herrors : errorsIn files profile source = []) :
    ∃ m, (p.analyze profile.strict).lower (profile.target (Path.base source.path)) = .ok m := by
  rw [errorsIn, hprogram, Option.map_some, Option.getD_some, Analysis.errors, filter_eq_nil_iff] at herrors
  have hclean : (p.analyze profile.strict).hasErrors = false := any_eq_false.2 herrors
  obtain ⟨m, hlower, -⟩ := Lower.program_lowers (Program.accepts_of_hasErrors hclean) hclean
      (profile.target (Path.base source.path))
  exact ⟨m, hlower⟩

theorem lowered_of_some (h : program? files source = some p) (rest : List SourceFile) :
      lowered files profile (source :: rest) =
      ((parse files source).map fun _ => (p.analyze profile.strict).lower (profile.target (Path.base source.path))) ::
        lowered files profile rest := by
  rw [lowered, analyzed_of_some h, map_cons, lowered]
  simp only [Staged.map, source_parse]

/-- If all sources have programs without errors, all of them have code. -/
theorem forall₂_code (hprograms : ∀ s ∈ sources, program? files s ≠ none)
    (herrors : ∀ s ∈ sources, errorsIn files profile s = []) :
    (∀ s ∈ lowered files profile sources, ∃ m, s.outcome = .ok m) ∧
      Forall₂ (fun source s => s.source = source ∧ code? files profile source = some s.outcome) sources
        (successes (lowered files profile sources)) := by
  induction sources with
  | nil => exact ⟨by simp [lowered, analyzed, parsed, successes], .nil⟩
  | cons source _ ih =>
    rw [forall_mem_cons] at hprograms herrors
    obtain ⟨hok, hcode⟩ := ih hprograms.2 herrors.2
    obtain ⟨p, hp⟩ := Option.ne_none_iff_exists'.1 hprograms.1
    obtain ⟨m, hm⟩ := exists_code hp herrors.1
    rw [lowered_of_some hp]
    refine ⟨forall_mem_cons.2 ⟨⟨m, hm⟩, hok⟩, ?_⟩
    rw [successes_of_ok hm]
    refine .cons ⟨source_parse files source, ?_⟩ hcode
    rw [code?, hp, Option.bind_some, toOption_eq_some, hm]
    rfl


theorem counts_reportEach {report : Staged α → Report Unit} {errors : Staged α → List β} {l : List (Staged α)}
    (h : ∀ s ∈ l, Counts level (errors s).length (report s)) : Counts level (l.flatMap errors).length
    (reportEach report l) := by
  induction l with
  | nil => exact counts_pure
  | cons _ _ ih =>
    rw [forall_mem_cons] at h
    rw [flatMap_cons, length_append, reportEach]
    exact h.1.seq (ih h.2)

/-- Reports on failures, one for each. -/
theorem counts_failures {report : Staged (Except ε α) → Report Unit} {l : List (Staged (Except ε α))}
    (hok : ∀ s ∈ l, ∀ a, s.outcome = .ok a → report s = pure ())
    (herror : ∀ s ∈ l, ∀ e, s.outcome = .error e → Counts level 1 (report s)) :
    Counts level (l.countP (·.outcome.toOption.isNone)) (reportEach report l) := by
  induction l with
  | nil => exact counts_pure
  | cons s _ ih =>
    rw [forall_mem_cons] at hok herror
    have hrest := ih hok.2 herror.2
    rw [reportEach]
    cases houtcome : s.outcome with
    | ok a =>
      rw [hok.1 a houtcome, countP_cons_of_neg (by simp [houtcome, Except.toOption])]
      exact counts_pure.quietly hrest
    | error e =>
      rw [countP_cons_of_pos (by simp [houtcome, Except.toOption]), Nat.add_comm]
      exact (herror.1 e houtcome).seq hrest

/-- Whether excerpts of the sources can be shown, if errors are. -/
def CanShow (level : LogLevel) (files : FileTree) (sources : List SourceFile) : Prop :=
  level.showsErrors → ∀ s ∈ sources, ∀ bytes, files.read s.path = .ok bytes → ∀ line ∈ ByteLine.split bytes,
    line.isTooLong = false

theorem CanShow.subject (h : CanShow level files sources) (hsource : source ∈ sources) (hshows : level.showsErrors) :
    (parse files source).subject.CanShow := by
  intro path bytes hfile
  rw [parse] at hfile
  split at hfile
  · obtain ⟨rfl, rfl⟩ := Prod.mk.inj (Option.some.inj hfile)
    simp [ByteLine.split]
  · rename_i bytes' hread
    obtain ⟨rfl, rfl⟩ := Prod.mk.inj (Option.some.inj hfile)
    exact h hshows source hsource bytes' hread

theorem counts_parsed (h : CanShow level files sources) :
    Counts level (sources.countP fun s => (program? files s).isNone)
    (reportEach reportParsed (parsed files sources)) := by
  have hcount : sources.countP (fun s => (program? files s).isNone) = (parsed files sources).countP
      (·.outcome.toOption.isNone) := by
    rw [parsed, countP_map]
    rfl
  rw [hcount]
  refine counts_failures (fun s _ p hp => by rw [reportParsed, hp]) fun s hs e he => ?_
  obtain ⟨source, hsource, rfl⟩ := mem_map.1 hs
  rw [reportParsed, he]
  cases e with
  | file => exact counts_failure
  | source e => exact counts_sourceError (h.subject hsource) e

theorem counts_analyzed (profile : Profile) (h : CanShow level files sources) :
    Counts level (sources.flatMap (errorsIn files profile)).length
    (reportEach reportAnalyzed (analyzed files profile sources)) := by
  rw [← flatMap_errors]
  refine counts_reportEach fun s hs => ?_
  obtain ⟨source, hsource, hsubject⟩ := exists_of_mem_analyzed hs
  exact counts_analysis (fun hshows => hsubject ▸ h.subject hsource hshows) s.outcome

theorem counts_lowered {l : List (Staged (Except LowerError IrModule))} (h : ∀ s ∈ l, ∃ m, s.outcome = .ok m) :
    Counts level 0 (reportEach reportLowered l) := by
  have hcount : l.countP (·.outcome.toOption.isNone) = 0 := by
    rw [countP_eq_zero]
    intro s hs
    obtain ⟨m, hm⟩ := h s hs
    simp [hm, Except.toOption]
  rw [← hcount]
  refine counts_failures (fun s _ m hm => by rw [reportLowered, hm]) fun s hs e he => ?_
  obtain ⟨m, hm⟩ := h s hs
  rw [hm] at he
  cases he

theorem counts_written (l : List (Staged (Except FileError Unit))) :
    Counts level (l.countP (·.outcome.toOption.isNone)) (reportEach reportWritten l) :=
  counts_failures (fun s _ a ha => by rw [reportWritten, ha]) fun s _ e he => by
    rw [reportWritten, he]
    exact counts_failure

end LocLang.Build
