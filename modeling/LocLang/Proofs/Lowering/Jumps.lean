import LocLang.Proofs.Lowering.Program
import LocLang.Proofs.Lowering.Scoping

namespace LocLang

open List

variable {blocks : List IrBlock}

variable {fs : List (FuncDef Ty)} {a : Analysis}

theorem IrBlock.placed_flatMap (blocks : List IrBlock) :
    (blocks.flatMap (·.marks)).filterMap (·.placed?) = blocks.map (·.label) := by
  rw [filterMap_flatMap, map_eq_flatMap]
  simp only [IrBlock.placed_marks]

theorem IrBlock.place_mem_marks {l : Label} :
    .place l ∈ blocks.flatMap (·.marks) ↔ l ∈ blocks.map (·.label) := by
  rw [← IrBlock.placed_flatMap, mem_filterMap]
  constructor
  · exact fun h => ⟨_, h, rfl⟩
  · rintro ⟨m, hm, hplaced⟩
    cases m <;> cases hplaced
    exact hm

namespace Lower

theorem writes_terminateIfOpen {t : Terminator} {d d' : Draft} (h : (terminateIfOpen t).Gives d () d') :
    ∃ edits, (terminateIfOpen t).Writes d edits () d' ∧ .place .entry ∉ edits := by
  rcases gives_terminateIfOpen.1 h with h | ⟨hcurrent, rfl⟩
  · obtain ⟨b, hb, -⟩ := gives_terminate.1 h
    refine ⟨[.close b.label t], .bind (.get d) ?_, by simp⟩
    rw [if_pos (by rw [hb]; rfl)]
    exact .terminate hb h
  · refine ⟨[], .bind (.get d') ?_, not_mem_nil⟩
    rw [if_neg (by rw [hcurrent]; exact Bool.false_ne_true)]
    exact .pure _ _

theorem writes_callee {name : String} {s : Signature} {d : Draft} (h : d.scopes.Finds name (.function s)) :
    (callee name).Writes d [] s d :=
  .bind (writes_lookup h) (.pure _ _)

theorem writes_parameters (params : List (String × IrParam)) (d : Draft) :
    (parameters params).Writes d [] () { d with scopes := declareParameters d.scopes params } := by
  induction params generalizing d with
  | nil => exact .pure _ _
  | cons q _ ih =>
    exact .bind (.scopes (fun s => s.declare q.1 (.value (.param q.2.name q.2.type))) d) (ih _)

theorem writes_signatures {d d' : Draft} (h : (signatures a fs).Gives d () d') :
    (signatures a fs).Writes d [] () d' := by
  induction fs generalizing d with
  | nil =>
    obtain ⟨-, rfl⟩ := gives_pure.1 h
    exact .pure _ _
  | cons f _ ih =>
    rw [signatures] at h ⊢
    split at h
    · exact absurd h gives_fault
    · rename_i symbol _
      split at h
      · obtain ⟨_, d1, hfault, -⟩ := gives_bind.1 h
        exact absurd hfault gives_fault
      · rename_i hlength
        rw [if_neg hlength]
        obtain ⟨_, d1, hdeclare, hrest⟩ := gives_bind.1 h
        obtain rfl := gives_declare.1 hdeclare
        exact .bind (.scopes (fun s => s.declare f.name (.function symbol.signature)) d) (ih hrest)

end Lower

namespace Draft

variable {d : Draft} {b : IrBlock}

/-- A finished block differs from a closed one at most by the slots at its start. -/
theorem exists_closed_of_mem_finished (hb : b ∈ d.finished) : ∃ c ∈ d.closed, c.label = b.label ∧ c.term = b.term := by
  cases hclosed : d.closed with
  | nil => simp [finished_of_nil hclosed] at hb
  | cons first =>
    rw [finished_of_cons hclosed] at hb
    rcases mem_cons.1 hb with rfl | hb
    · exact ⟨first, mem_cons_self, rfl, rfl⟩
    · exact ⟨b, mem_cons_of_mem _ hb, rfl, rfl⟩

theorem labels_finished (d : Draft) : d.finished.map (·.label) = d.closed.map (·.label) := by
  cases hclosed : d.closed with
  | nil => rw [finished_of_nil hclosed]
  | cons => rw [finished_of_cons hclosed, map_cons, map_cons]

/-- Of finished blocks, only the last one can come from the last closed one. -/
theorem eq_getLast?_finished {last : IrBlock} (hclosed : d.closed = blocks ++ [last])
    (hb : b ∈ d.finished) :
    (∃ c ∈ blocks, c.label = b.label ∧ c.term = b.term) ∨ last.term = b.term ∧ d.finished.getLast? = some b := by
  cases blocks with
  | nil =>
    rw [finished_of_cons hclosed] at hb ⊢
    obtain rfl := mem_singleton.1 hb
    exact .inr ⟨rfl, rfl⟩
  | cons first others =>
    rw [cons_append] at hclosed
    rw [finished_of_cons hclosed] at hb ⊢
    simp only [mem_cons, mem_append, not_mem_nil, or_false] at hb
    rcases hb with rfl | hb | rfl
    · exact .inl ⟨first, mem_cons_self, rfl, rfl⟩
    · exact .inl ⟨b, mem_cons_of_mem _ hb, rfl, rfl⟩
    · exact .inr ⟨rfl, getLast?_concat (l := _ :: others)⟩

end Draft

namespace Lower

variable {enums : EnumTable} {f : FuncDef Ty} {s : Signature} {d d' d1 d2 : Draft} {g : IrFunction}
  {gs : List IrFunction}
  {scopes : Scopes Binding} {target : Target} {m : IrModule} {P : List Edit → IrFunction → Prop}

theorem targets_ending (result : MachineTy) : (if result = .void then Terminator.retVoid else .unreachable).targets =
    [] := by
  split <;> rfl

theorem current_of_terminateIfOpen {t : Terminator} (h : (terminateIfOpen t).Gives d () d') : d'.current = none := by
  rcases gives_terminateIfOpen.1 h with h | ⟨hcurrent, rfl⟩
  · obtain ⟨b, -, rfl⟩ := gives_terminate.1 h
    rfl
  · exact hcurrent

/-- The course of a function from its entry to the end of its body. -/
theorem function_course {S : Scheme} (hf : f.body.Obeys S.rules) (h : (function enums f).Gives d g d')
    (hd : ∀ params, (start d params).Binds S) :
    ∃ params edits d1, (start d params).Course S false [] edits d1 ∧ d1.labels = d'.labels ∧
      g.marks = .place .entry :: (edits.flatMap (·.marks)).filter (·.isCode) := by
  obtain ⟨s, d1, d2, -, hblock, hclose, rfl, rfl⟩ := gives_function.1 h
  obtain ⟨edits, -, hcourse⟩ := (block_built _ f.body hf : Built S false _ _).course hblock (hd _)
  obtain ⟨hmarks, -, hlabels, hcurrent⟩ := marks_terminateIfOpen hclose (targets_ending _)
  refine ⟨_, edits, d1, hcourse, hlabels.symm, ?_⟩
  rw [IrFunction.marks, Draft.marks_finished hcurrent, hmarks, hcourse.marks_eq]
  rfl

/-- The labels of a function are different, and the entry is the first. -/
theorem labels_of_body {params : List (String × IrParam)} {result : MachineTy}
    (hblock : (block ⟨enums, s.result⟩ f.body).Gives (start d params) () d1)
    (hclose : (terminateIfOpen (if result = .void then .retVoid else .unreachable)).Gives d1 () d2) :
    d2.blockLabels.Nodup ∧ d2.blockLabels.head? = some .entry := by
  obtain ⟨edits, -, hcourse⟩ := block_course hblock
  rw [← d2.placed_marks, (marks_terminateIfOpen hclose (targets_ending _)).1, d1.placed_marks]
  exact hcourse.nodup_labels rfl

/-- Every block goes on to later ones, but for the way back of a loop from its body. -/
theorem function_lands {rules : TreeRules} (hf : f.body.Obeys rules) (h : (function enums f).Gives d g d')
    {before after : List IrBlock} {b : IrBlock} (hblocks : g.blocks = before ++ b :: after) {l : Label}
    (hl : l ∈ b.term.targets) :
    l ∈ after.map (·.label) ∨ rules.loop ∧ ∃ n, l = .whileCond n ∧ .whileCond n ∈ (before ++ [b]).map (·.label) ∧
      .whileBody n ∈ (before ++ [b]).map (·.label) ∧ .whileEnd n ∈ after.map (·.label) := by
  obtain ⟨_, edits, _, hcourse, -, hmarks⟩ := function_course (S := .of rules) hf h fun _ _ _ _ => trivial
  obtain ⟨targets, targets', htargets⟩ := append_of_mem hl
  obtain ⟨first, last, hsplit, hfirst, hlast⟩ : ∃ first last, g.marks = first ++ .jump l :: last ∧
      (∀ k, .place k ∈ first → k ∈ (before ++ [b]).map (·.label)) ∧ ∀ k, .place k ∈ last → k ∈ after.map (·.label) := by
    refine ⟨before.flatMap (·.marks) ++ .place b.label :: (b.insts.filterMap (·.mark?) ++ targets.map .jump),
      targets'.map .jump ++ after.flatMap (·.marks), by simp [IrFunction.marks, hblocks, IrBlock.marks, htargets],
      fun k hk => ?_, fun k hk => IrBlock.place_mem_marks.1 (by simpa using hk)⟩
    rw [map_append, mem_append, ← IrBlock.place_mem_marks]
    simp only [mem_append, mem_cons, Mark.place.injEq, mem_map, reduceCtorEq, and_false, exists_false, or_false] at hk
    rcases hk with hk | rfl | hk
    · exact .inl hk
    · exact .inr (by simp)
    · obtain ⟨i, -, hmark⟩ := mem_filterMap.1 hk
      obtain ⟨n, hn | hn⟩ := Inst.eq_of_mark? hmark <;> cases hn
  have hways := congrArg (filter (·.isWay)) (hmarks.symm.trans hsplit)
  rw [filter_cons_of_pos rfl, Mark.filter_isWay, filter_append, filter_cons_of_pos rfl] at hways
  have hfits := hcourse.fits_ways (by simp)
  cases hstart : first.filter (·.isWay) with
  | nil =>
    rw [hstart] at hways
    cases hways
  | cons m first' =>
    rw [hstart] at hways
    have hmem {k : Label} (hk : .place k ∈ first') : .place k ∈ first :=
      mem_of_mem_filter (hstart ▸ mem_cons_of_mem m hk)
    rw [(cons.inj hways).2] at hfits
    rcases hfits.land with hplace | ⟨hloop, n, rfl, hcond, hbody, hend⟩
    · exact .inl (hlast _ (mem_of_mem_filter hplace))
    · exact .inr ⟨hloop, n, rfl, hfirst _ (hmem hcond), hfirst _ (hmem hbody), hlast _ (mem_of_mem_filter hend)⟩

theorem function_labels (h : (function enums f).Gives d g d') : g.labels.Nodup ∧ g.labels.head? = some .entry := by
  obtain ⟨s, d1, d2, -, hblock, hclose, rfl, -⟩ := gives_function.1 h
  have hlabels : d2.finished.map (·.label) = d2.blockLabels := by
    rw [Draft.labels_finished, Draft.blockLabels, current_of_terminateIfOpen hclose]
    simp
  rw [IrFunction.labels, hlabels]
  exact labels_of_body hblock hclose

theorem function_wellFormed (h : (function enums f).Gives d g d') : g.WellFormed := by
  obtain ⟨hnodup, hfirst⟩ := function_labels h
  refine ⟨hfirst, hnodup, fun b hb l hl => ?_, fun b hb hentry => ?_, fun b hb hterm => ?_⟩
  · obtain ⟨before, after, hblocks⟩ := append_of_mem hb
    rw [IrFunction.labels, hblocks, append_cons, map_append, mem_append]
    rcases function_lands f.body.obeys_free h hblocks hl with hl | ⟨-, n, rfl, hl, -⟩
    · exact .inr hl
    · exact .inl hl
  · obtain ⟨before, after, hblocks⟩ := append_of_mem hb
    rw [IrFunction.labels, hblocks] at hnodup hfirst
    rcases function_lands f.body.obeys_free h hblocks hentry with hmem | ⟨-, n, heq, -⟩
    · cases before <;> simp_all
    · cases heq
  · obtain ⟨s, d1, d2, -, hblock, hclose, rfl, -⟩ := gives_function.1 h
    obtain ⟨edits, -, hcourse⟩ := block_course hblock
    have hfail {c : IrBlock} (hc : c ∈ d1.closed) (hlabel : c.label = b.label) (heq : c.term = b.term) :
        ∃ n, b.label = .matchFail n :=
      hlabel ▸ hcourse.unreachable hc (by simp [start]) (heq.trans hterm)
    rcases gives_terminateIfOpen.1 hclose with hclose | ⟨-, rfl⟩
    · obtain ⟨last, hlast, rfl⟩ := gives_terminate.1 hclose
      rcases Draft.eq_getLast?_finished rfl hb with ⟨c, hc, hlabel, heq⟩ | ⟨heq, hb⟩
      · exact .inl (hfail hc hlabel heq)
      · refine .inr ⟨hb, fun hvoid => ?_⟩
        rw [← heq, OpenBlock.close, if_pos hvoid] at hterm
        cases hterm
    · obtain ⟨c, hc, hlabel, heq⟩ := Draft.exists_closed_of_mem_finished hb
      exact .inl (hfail hc hlabel heq)

/-- The changes that make a function, from its entry to the end of its body. -/
theorem function_edits (h : (function enums f).Gives d g d') :
    ∃ edits s d1 d2, (function enums f).Writes d edits g d' ∧ d2.WrittenBy edits ∧
      (block ⟨enums, s.result⟩ f.body).Gives (start d ((f.params.map (·.name)).zip (f.irParams s))) () d1 ∧
      (terminateIfOpen (if s.result = .void then .retVoid else .unreachable)).Gives d1 () d2 ∧
      g = ⟨f.name, s.result, f.irParams s, d2.finished⟩ := by
  obtain ⟨s, d1, d2, hfinds, hblock, hclose, rfl, rfl⟩ := gives_function.1 h
  obtain ⟨edits, hedits, hcourse⟩ := block_course hblock
  have hentry := hcourse.entry_not_mem
  obtain ⟨edits', hedits', hentry'⟩ := writes_terminateIfOpen hclose
  have hstart : (start d ((f.params.map (·.name)).zip (f.irParams s))).WrittenBy [.place .entry] := by
    refine ⟨rfl, rfl, by simp [start], ?_, ?_, rfl, pairwise_singleton _ _⟩
    · rintro b ⟨⟩
      exact ⟨rfl, rfl⟩
    · intro label hlabel e he heq
      rw [mem_singleton.1 he] at heq
      cases heq
      exact hlabel (by simp [start, Draft.blockLabels])
  refine ⟨.place .entry :: (edits ++ edits'), s, d1, d2, ?_, ?_, hblock, hclose, rfl⟩
  · have hrun : (function enums f).Writes d
        ([] ++ ([.place .entry] ++ ([] ++ ([] ++ (edits ++ (edits' ++ ([] ++ ([] ++ [])))))))) _
        { d2 with scopes := d2.scopes.exitFunction } :=
      .bind (writes_callee hfinds) <| .bind (.begin d) <| .bind (.scopes Scopes.push _) <|
        .bind (writes_parameters _ _) <| .bind hedits <| .bind hedits' <| .bind (.scopes Scopes.exitFunction _) <|
          .bind (.get _) (.pure _ _)
    simp only [nil_append, append_nil, singleton_append, Scopes.exitFunction_eq_leave] at hrun
    exact hrun
  · have hbody := Writes.bind (f := fun _ => terminateIfOpen _) hedits hedits'
    exact hbody.writtenBy (by simp [hentry, hentry']) (labels_of_body hblock hclose).1 hstart

/-- The code of every function is written by changes to open blocks. -/
theorem function_written (h : (function enums f).Gives d g d') :
    ∃ edits, (function enums f).Writes d edits g d' ∧ g.WrittenBy edits := by
  obtain ⟨edits, s, d1, d2, hwrites, hwritten, hblock, hclose, rfl⟩ := function_edits h
  obtain ⟨hnodup, hfirst⟩ := labels_of_body hblock hclose
  exact ⟨edits, hwrites, hwritten.finished (current_of_terminateIfOpen hclose) hnodup hfirst _ _ _⟩

/-- A function is lowered in the scopes of the module, which are left as they were. -/
theorem function_scopes (h : (function enums f).Gives d g d') (hinner : d.scopes.inner = []) :
    d'.scopes = d.scopes := by
  obtain ⟨s, d1, d2, -, hblock, hclose, -, rfl⟩ := gives_function.1 h
  have hsame := sameOutside_declareParameters (Scopes.push_inner_ne_nil d.scopes)
    ((f.params.map (·.name)).zip (f.irParams s))
  rw [(Steady.terminateIfOpen _).scopes_eq hclose, (block_steady _ f.body).scopes_eq hblock, Scopes.leave,
    start, hsame.base_eq]
  exact Scopes.leave_eq_self hinner

/-- The functions of a program are written one after another, all in the scopes of the module. What is so for each
    function in these scopes is so for all of them. -/
theorem functions_written (hinner : scopes.inner = [])
    (hP : ∀ {f d g d'}, d.scopes = scopes → (function enums f).Gives d g d' →
      ∃ edits, (function enums f).Writes d edits g d' ∧ P edits g) (hscopes : d.scopes = scopes)
    (h : (functions enums fs).Gives d gs d') :
    ∃ parts : List (List Edit × IrFunction), (functions enums fs).Writes d (parts.flatMap (·.1)) gs d' ∧
      parts.map (·.2) = gs ∧ ∀ part ∈ parts, P part.1 part.2 := by
  induction fs generalizing d gs with
  | nil =>
    obtain ⟨rfl, rfl⟩ := gives_pure.1 h
    exact ⟨[], .pure _ _, rfl, by simp⟩
  | cons f fs ih =>
    obtain ⟨g, d1, hfunction, h⟩ := gives_bind.1 h
    obtain ⟨gs, hrest, rfl⟩ := gives_map.1 h
    obtain ⟨edits, hedits, hg⟩ := hP hscopes hfunction
    obtain ⟨parts, hparts, rfl, hall⟩ := ih ((function_scopes hfunction (hscopes ▸ hinner)).trans hscopes) hrest
    refine ⟨(edits, g) :: parts, ?_, rfl, ?_⟩
    · have hrun := Writes.bind (f := fun g => (functions enums fs >>= fun gs => pure (g :: gs))) hedits
        (.bind hparts (.pure _ _))
      rwa [append_nil] at hrun
    · rintro part hpart
      rcases mem_cons.1 hpart with rfl | hpart
      · exact hg
      · exact hall part hpart

/-- Every function of a program is lowered in the scopes of the module. -/
theorem function_gives_of_mem (hinner : scopes.inner = []) (hscopes : d.scopes = scopes)
    (h : (functions enums fs).Gives d gs d') (hf : f ∈ fs) :
    ∃ g ∈ gs, ∃ d0 d1, (function enums f).Gives d0 g d1 ∧ d0.scopes = scopes := by
  induction fs generalizing d gs with
  | nil => cases hf
  | cons _ _ ih =>
    obtain ⟨g, d1, hfunction, h⟩ := gives_bind.1 h
    obtain ⟨gs, hrest, rfl⟩ := gives_map.1 h
    rcases mem_cons.1 hf with rfl | hf
    · exact ⟨g, mem_cons_self, d, d1, hfunction, hscopes⟩
    · obtain ⟨g', hg', hgives⟩ := ih ((function_scopes hfunction (hscopes ▸ hinner)).trans hscopes) hrest hf
      exact ⟨g', mem_cons_of_mem _ hg', hgives⟩

/-- There is no code but that of the functions. -/
theorem exists_gives_of_mem (hinner : scopes.inner = []) (hscopes : d.scopes = scopes)
    (h : (functions enums fs).Gives d gs d') (hg : g ∈ gs) :
    ∃ f ∈ fs, ∃ d0 d1, (function enums f).Gives d0 g d1 ∧ d0.scopes = scopes := by
  induction fs generalizing d gs with
  | nil =>
    obtain ⟨rfl, -⟩ := gives_pure.1 h
    cases hg
  | cons f _ ih =>
    obtain ⟨g', d1, hfunction, h⟩ := gives_bind.1 h
    obtain ⟨gs, hrest, rfl⟩ := gives_map.1 h
    rcases mem_cons.1 hg with rfl | hg
    · exact ⟨f, mem_cons_self, d, d1, hfunction, hscopes⟩
    · obtain ⟨f', hf', hgives⟩ := ih ((function_scopes hfunction (hscopes ▸ hinner)).trans hscopes) hrest hg
      exact ⟨f', mem_cons_of_mem _ hf', hgives⟩

/-- Scopes of a module, in which functions are declared and nothing else. -/
structure IsModule (scopes : Scopes Binding) : Prop where
  inner : scopes.inner = []
  functions_only : ∀ name b, scopes.Finds name b → ∃ s, b = .function s

theorem IsModule.signatures (h : IsModule d.scopes) (hgives : (signatures a fs).Gives d () d') :
    IsModule d'.scopes := by
  induction fs generalizing d with
  | nil =>
    obtain ⟨-, rfl⟩ := gives_pure.1 hgives
    exact h
  | cons _ _ ih =>
    rw [Lower.signatures] at hgives
    split at hgives
    · exact absurd hgives gives_fault
    · dsimp only at hgives
      split at hgives
      · obtain ⟨_, d1, hfault, -⟩ := gives_bind.1 hgives
        exact absurd hfault gives_fault
      · obtain ⟨_, d1, hdeclare, hrest⟩ := gives_bind.1 hgives
        obtain rfl := gives_declare.1 hdeclare
        refine ih ⟨by simp [Scopes.declare, h.inner], fun name b hfinds => ?_⟩ hrest
        rw [Scopes.finds_declare] at hfinds
        split at hfinds
        · exact ⟨_, hfinds⟩
        · exact h.functions_only name b hfinds

theorem isModule_empty : IsModule .empty :=
  ⟨rfl, by rintro name b ⟨entry, hentry, -⟩; cases hentry⟩

theorem gives_program_of_lower (h : a.lower target = .ok m) :
    ∃ d, (program a).Gives { scopes := .empty } m.functions d := by
  rw [Analysis.lower] at h
  split at h
  · cases h
  · split at h
    · cases h
    · rename_i functions d hrun
      cases h
      exact ⟨d, hrun⟩

/-- The code of an accepted program has the code of every function, lowered in the scopes of the module. -/
theorem code_of_mem {p : Program Unit} (ha : a.Accepts p) (h : a.lower target = .ok m)
    (hf : f ∈ a.checked) : ∃ g d0 d1, m.functions.find? (·.name = f.name) = some g ∧
      (function a.enums f).Gives d0 g d1 ∧
      d0.scopes = declareAll a.enums .empty a.checked := by
  have herrors : a.hasErrors = false := by
    rw [Analysis.lower] at h
    split at h
    · cases h
    · next herrors => exact Bool.eq_false_iff.2 herrors
  obtain ⟨m', hlower, htyped, -⟩ := program_lowers ha herrors target
  obtain rfl : m' = m := Except.ok.inj (hlower.symm.trans h)
  obtain ⟨d, hprogram⟩ := gives_program_of_lower h
  obtain ⟨_, d', hsignatures, hfunctions⟩ := gives_bind.1 hprogram
  obtain ⟨-, rfl⟩ := hsignatures.unique (signatures_gives ha a.checked fun _ hf => hf)
  obtain ⟨g, hg, d0, d1, hgives, hscopes⟩ := function_gives_of_mem (declareAll_inner_eq_nil rfl) rfl hfunctions hf
  obtain ⟨s, d2, d3, -, -, -, rfl, -⟩ := gives_function.1 hgives
  exact ⟨_, d0, d1, find?_of_nodup_key (·.name) htyped.names hg, hgives, hscopes⟩

theorem exists_checked_of_mem (h : a.lower target = .ok m) (hg : g ∈ m.functions) :
    ∃ f ∈ a.checked, ∃ d0 d1, (function a.enums f).Gives d0 g d1 ∧ IsModule d0.scopes := by
  obtain ⟨d, hprogram⟩ := gives_program_of_lower h
  obtain ⟨_, d', hsignatures, hfunctions⟩ := gives_bind.1 hprogram
  have hmodule : IsModule d'.scopes := isModule_empty.signatures hsignatures
  obtain ⟨f, hf, d0, d1, hgives, hscopes⟩ := exists_gives_of_mem hmodule.inner rfl hfunctions hg
  exact ⟨f, hf, d0, d1, hgives, hscopes ▸ hmodule⟩

/-- The code of a program is written function by function. What is so for each function is so for all of them. -/
theorem program_written
    (hP : ∀ {f d g d'}, IsModule d.scopes → (function a.enums f).Gives d g d' →
      ∃ edits, (function a.enums f).Writes d edits g d' ∧ P edits g) (h :
        (program a).Gives { scopes := .empty } gs d') :
    ∃ parts : List (List Edit × IrFunction), (program a).Writes { scopes := .empty } (parts.flatMap (·.1)) gs d' ∧
      parts.map (·.2) = gs ∧ ∀ part ∈ parts, P part.1 part.2 := by
  obtain ⟨_, d1, hsignatures, hfunctions⟩ := gives_bind.1 h
  have hmodule : IsModule d1.scopes := isModule_empty.signatures hsignatures
  obtain ⟨parts, hparts, hmap, hall⟩ := functions_written hmodule.inner
    (fun hscopes hfunction => hP (hscopes ▸ hmodule) hfunction) rfl hfunctions
  exact ⟨parts, .bind (writes_signatures hsignatures) hparts, hmap, hall⟩

end Lower

/-- The control flow of the code of every program without errors is in order. The code comes about by a run of
    changes, function by function, none of which touches a block that is closed. -/
theorem Program.lower_wellFormed (p : Program Unit) (strict : Bool) (target : Target)
    (h : (p.analyze strict).hasErrors = false) :
    ∃ m, (p.analyze strict).lower target = .ok m ∧ (∀ f ∈ m.functions, f.WellFormed) ∧
      ∃ (parts : List (List Edit × IrFunction)) (d : Draft), parts.map (·.2) = m.functions ∧
        (Lower.program (p.analyze strict)).Writes { scopes := .empty } (parts.flatMap (·.1)) m.functions d ∧
        ∀ part ∈ parts, part.2.WrittenBy part.1 := by
  obtain ⟨m, hlower, -⟩ := Lower.program_lowers (accepts_of_hasErrors h) h target
  obtain ⟨d, hprogram⟩ := Lower.gives_program_of_lower hlower
  obtain ⟨parts, hparts, hmap, hall⟩ := Lower.program_written (P := fun edits f => f.WellFormed ∧ f.WrittenBy edits)
    (fun _ hfunction => by
      obtain ⟨edits, hedits, hwritten⟩ := Lower.function_written hfunction
      exact ⟨edits, hedits, Lower.function_wellFormed hfunction, hwritten⟩) hprogram
  refine ⟨m, hlower, fun f hf => ?_, parts, d, hmap, hparts, fun part hpart => (hall part hpart).2⟩
  obtain ⟨part, hpart, rfl⟩ := mem_map.1 (hmap ▸ hf)
  exact (hall part hpart).1

theorem Program.lower_wellFormed_countdown : (countdown.analyze true).hasErrors = false ∧
      ∃ m, (countdown.analyze true).lower {} = .ok m ∧ ∀ f ∈ m.functions, f.WellFormed := by
  obtain ⟨m, hlower, hfunctions, -⟩ := lower_wellFormed countdown true {} rfl
  exact ⟨rfl, m, hlower, hfunctions⟩

end LocLang
