import LocLang.Proofs.Lowering.Cycles

namespace LocLang

open Mark Construct IrBlock List

variable {after before : List Mark} {m : Mark}

/-- The block of the construct `n` that started last. -/
def Mark.stage (n : Nat) (marks : List Mark) : Option Label :=
  ((marks.filter (·.isOf n)).filterMap (·.placed?)).getLast?

theorem Mark.stage_append {n : Nat} {marks marks' : List Mark}
    (h : ∀ label, .place label ∈ marks' → label.number? ≠ some n) : Mark.stage n (marks ++ marks') =
    Mark.stage n marks := by
  have hnone : (marks'.filter (·.isOf n)).filterMap (·.placed?) = [] := by
    refine filterMap_eq_nil_iff.2 fun m hm => ?_
    rw [mem_filter] at hm
    cases m with
    | place label => exact absurd (of_decide_eq_true hm.2) (h label hm.1)
    | _ => rfl
  rw [Mark.stage, filter_append, filterMap_append, hnone, append_nil, Mark.stage]

theorem exists_append_of_not_mem {α : Type} {a : α} {l l' first last : List α} (h : l ++ l' = first ++ a :: last)
    (ha : a ∉ l) : ∃ more, first = l ++ more ∧ l' = more ++ a :: last := by
  rcases append_eq_append_iff.1 h with hmore | ⟨more, rfl, hlast⟩
  · exact hmore
  · cases more with
    | nil => exact ⟨[], by simp, by simpa using hlast.symm⟩
    | cons =>
      obtain ⟨rfl, -⟩ := List.cons.inj hlast
      exact absurd (by simp) ha

namespace IrBlock

/-- Inside of a block no other one starts. -/
theorem place_not_mem_body {b : IrBlock} {l : Label} :
    .place l ∉ b.insts.filterMap (·.mark?) ++ b.term.targets.map Mark.jump := by
  intro hmem
  rcases mem_append.1 hmem with hmem | hmem
  · obtain ⟨i, -, hi⟩ := mem_filterMap.1 hmem
    obtain ⟨n, heq | heq⟩ := Inst.eq_of_mark? hi <;> cases heq
  · simp at hmem

/-- Where the start of a block is marked, there the block is. -/
theorem exists_of_marks {blocks : List IrBlock} {l : Label}
    (h : blocks.flatMap (·.marks) = before ++ .place l :: after) :
    ∃ passed b others, blocks = passed ++ b :: others ∧ b.label = l ∧ before = passed.flatMap (·.marks) ∧
      after = b.insts.filterMap (·.mark?) ++ b.term.targets.map .jump ++ others.flatMap (·.marks) := by
  induction blocks generalizing before with
  | nil => simp at h
  | cons b blocks ih =>
    cases before with
    | nil =>
      obtain ⟨hl, rfl⟩ := List.cons.inj h
      exact ⟨[], b, blocks, rfl, Mark.place.inj hl, rfl, rfl⟩
    | cons =>
      obtain ⟨rfl, hrest⟩ := List.cons.inj h
      obtain ⟨more, rfl, hblocks⟩ := exists_append_of_not_mem hrest place_not_mem_body
      obtain ⟨passed, c, others, rfl, hc, rfl, hafter⟩ := ih hblocks
      exact ⟨b :: passed, c, others, rfl, hc, by simp [marks], hafter⟩

/-- What stands right at the start of a block and is no way is one of its instructions. -/
theorem exists_inst_of_marks {b : IrBlock} {others : List IrBlock} (hm : m.isWay = false)
    (h : m :: after = b.insts.filterMap (·.mark?) ++ b.term.targets.map .jump ++ others.flatMap (·.marks)) :
    ∃ i ∈ b.insts, i.mark? = some m := by
  cases hinsts : b.insts.filterMap (·.mark?) with
  | nil => cases htargets : b.term.targets <;> cases others <;> simp_all [marks]
  | cons =>
    rw [hinsts] at h
    obtain ⟨rfl, -⟩ := List.cons.inj h
    exact mem_filterMap.1 (hinsts ▸ mem_cons_self)

theorem count_marks (hm : m.isWay = false) (blocks : List IrBlock) :
    (blocks.flatMap (·.marks)).count m = (blocks.flatMap (·.insts)).countP (·.mark? = some m) := by
  induction blocks with
  | nil => rfl
  | cons b _ ih =>
    have hjumps : (b.term.targets.map Mark.jump).count m = 0 := by
      refine count_eq_zero.2 fun hmem => ?_
      obtain ⟨l, -, rfl⟩ := mem_map.1 hmem
      cases hm
    have hinsts : (b.insts.filterMap (·.mark?)).count m = b.insts.countP (·.mark? = some m) := by
      rw [List.count, countP_filterMap]
      congr! 1
      ext i
      cases i.mark? <;> simp [Bool.beq_eq_decide_eq]
    have hplace : (Mark.place b.label == m) = false := beq_false_of_ne fun heq => by
      rw [← heq] at hm
      cases hm
    rw [flatMap_cons, flatMap_cons, count_append, countP_append, ih, marks, count_cons,
      count_append, hjumps, hinsts, hplace]
    simp

end IrBlock

namespace IrFunction

/-- The block of the construct `n` that started last when a block starts. -/
def stage (g : IrFunction) (n : Nat) (l : Label) : Option Label :=
  Mark.stage n (g.marks.takeWhile (· ≠ .place l) ++ [.place l])

/-- Whether a function contains a match with the number `n`, among other constructs. -/
structure Selects (g : IrFunction) (n : Nat) (arms : List Bool) (valued : Bool) : Prop where
  wellFormed : g.WellFormed
  marks : Follow (g.marks.filter (·.isOf n)) (((select arms valued).marks n).filter (·.isCode))
  nested : ∀ n first m last, [first, m, last].Sublist g.marks → first.isOf n = true → last.isOf n = true →
    m.before n = false

variable {g : IrFunction} {n k : Nat} {arms : List Bool} {valued : Bool} {l l' : Label}

/-- A block starts once. -/
theorem place_not_mem (hnodup : g.labels.Nodup) (h : g.marks = before ++ .place l :: after) : .place l ∉ before := by
  have hlabels : g.labels = before.filterMap (·.placed?) ++ l :: after.filterMap (·.placed?) := by
    rw [labels, ← placed_flatMap, show g.blocks.flatMap (·.marks) = _ from h]
    simp
  intro hmem
  rw [hlabels] at hnodup
  exact disjoint_of_nodup_append hnodup (mem_filterMap.2 ⟨_, hmem, rfl⟩) mem_cons_self

theorem stage_eq (hnodup : g.labels.Nodup) (h : g.marks = before ++ .place l :: after) :
    g.stage n l = Mark.stage n (before ++ [.place l]) := by
  have hbefore : ∀ m ∈ before, decide (m ≠ .place l) = true := fun m hm =>
    decide_eq_true fun heq => place_not_mem hnodup h (heq ▸ hm)
  rw [stage, h, takeWhile_append_of_pos hbefore, takeWhile_cons_of_neg (by simp), append_nil]

theorem exists_place (hl : l ∈ g.labels) : ∃ before after, g.marks = before ++ .place l :: after :=
  append_of_mem (place_mem_marks.2 hl)

/-- At a block of the construct itself this one started last. -/
theorem stage_self (hnodup : g.labels.Nodup) (hl : l ∈ g.labels) (hn : l.number? = some n) : g.stage n l = some l := by
  obtain ⟨before, after, hmarks⟩ := exists_place hl
  rw [stage_eq hnodup hmarks, Mark.stage, filter_append, filter_singleton, isOf_place hn]
  simp

theorem mem_labels_of_stage (hnodup : g.labels.Nodup) (hl : l ∈ g.labels) (h : g.stage n l = some l') :
    l' ∈ g.labels := by
  obtain ⟨before, after, hmarks⟩ := exists_place hl
  rw [stage_eq hnodup hmarks] at h
  obtain ⟨m, hm, hplaced⟩ := mem_filterMap.1 (mem_of_getLast? h)
  refine place_mem_marks.1 (show .place l' ∈ g.marks from ?_)
  cases m <;> cases hplaced
  rw [hmarks, ← singleton_append, ← append_assoc]
  exact mem_append_left _ (mem_of_mem_filter hm)

/-- A block goes to another one while the same block of a construct is the last. -/
theorem Goes.exists_jump (h : g.Goes l l') (hnodup : g.labels.Nodup) (n : Nat) :
    ∃ before after, g.marks = before ++ .jump l' :: after ∧ Mark.stage n before = g.stage n l := by
  obtain ⟨b, hb, rfl, hjump⟩ := h
  obtain ⟨passed, others, hblocks⟩ := append_of_mem hb
  obtain ⟨targets, targets', htargets⟩ := append_of_mem hjump
  have hmarks : g.marks = passed.flatMap (·.marks) ++ .place b.label ::
      (b.insts.filterMap (·.mark?) ++ targets.map .jump ++ .jump l' ::
      (targets'.map .jump ++ others.flatMap (·.marks))) := by
    simp [IrFunction.marks, hblocks, IrBlock.marks, htargets]
  refine ⟨passed.flatMap (·.marks) ++ [.place b.label] ++ (b.insts.filterMap (·.mark?) ++ targets.map .jump),
    targets'.map .jump ++ others.flatMap (·.marks), by rw [hmarks]; simp, ?_⟩
  rw [stage_eq hnodup hmarks]
  refine stage_append fun label hlabel => ?_
  refine absurd (mem_append.2 ?_) (place_not_mem_body (b := b) (l := label))
  simpa using hlabel

theorem Goes.mem_labels (h : g.Goes l l') (hg : g.WellFormed) : l ∈ g.labels ∧ l' ∈ g.labels := by
  obtain ⟨b, hb, rfl, hjump⟩ := h
  exact ⟨mem_map_of_mem hb, hg.targets_placed b hb l' hjump⟩

namespace Selects

variable {passed : List Label}

/-- The blocks of a match. -/
theorem labels_eq (h : g.Selects n arms valued) : g.labels.filter (·.number? = some n) =
      ((List.range arms.length).flatMap fun k => [.matchTest n k, .matchArm n k]) ++ [.matchFail n, .matchEnd n] := by
  have hplaced := h.marks.placed_eq
  rw [filterMap_placed? (fun _ => rfl) (Construct.marks _ _), placed_select] at hplaced
  rw [← hplaced, labels, ← placed_flatMap, filterMap_filter, filter_filterMap]
  refine filterMap_congr fun m _ => ?_
  cases m with
  | place label => by_cases hn : label.number? = some n <;> simp [Mark.isOf, Mark.number?, Option.filter, hn]
  | _ => simp

/-- The match goes on within its plan. -/
theorem goes_of_marks (h : g.Selects n arms valued) (hmarks : g.marks = before ++ .jump l :: after)
    (hn : l.number? = some n) : Construct.Goes n (Mark.stage n before) l
    ((after.filter (·.isOf n)).filterMap (·.placed?)) := by
  have hfollow := h.marks
  rw [hmarks, filter_append, filter_cons_of_pos (isOf_jump hn)] at hfollow
  obtain ⟨planned, planned', hplan, hbefore, hafter⟩ := hfollow.split
  obtain ⟨first, last, hselect, rfl, rfl⟩ := exists_of_filter_eq hplan
  have hways := Ways.allowed (hselect ▸ ways_select n arms valued)
  rw [Mark.stage, hbefore.placed_eq, hafter.placed_eq, filterMap_placed? fun _ => rfl, filterMap_placed? fun _ => rfl]
  rwa [Option.or_none] at hways

theorem goes (h : g.Selects n arms valued) (hgoes : g.Goes l l') (hn : l'.number? = some n) :
    ∃ later, Construct.Goes n (g.stage n l) l' later := by
  obtain ⟨before, after, hmarks, hstage⟩ := hgoes.exists_jump h.wellFormed.labels_nodup n
  exact ⟨_, hstage ▸ h.goes_of_marks hmarks hn⟩

/-- Where the blocks of a match are known to start, they are all of them. -/
theorem length_eq (h : g.Selects n arms valued) {inner : List Mark} {next : Label}
    (hmarks : g.marks = before ++ .jump next :: (inner ++ .place (.matchFail n) :: .place (.matchEnd n) :: after))
    (hinner : (inner.filter (·.isOf n)).filterMap (·.placed?) = (List.range k).flatMap fun i =>
    [.matchTest n i, .matchArm n i]) (hnext : next = if k = 0 then .matchFail n else .matchTest n 0) :
    arms.length = k ∧ Mark.stage n before = none := by
  have hn : next.number? = some n := by
    rw [hnext]
    split <;> rfl
  have hlater : ((inner ++ .place (.matchFail n) :: .place (.matchEnd n) :: after).filter (·.isOf n)).filterMap
      (·.placed?) =
      ((List.range k).flatMap fun i => [.matchTest n i, .matchArm n i]) ++ .matchFail n :: .matchEnd n ::
        (after.filter (·.isOf n)).filterMap (·.placed?) := by
    rw [filter_append, filterMap_append, hinner, filter_cons_of_pos (isOf_place rfl),
      filter_cons_of_pos (isOf_place rfl)]
    rfl
  have hgoes := h.goes_of_marks hmarks hn
  rw [hlater] at hgoes
  obtain ⟨-, ⟨hnone, -⟩ | ⟨j, -, hhead, -⟩ | ⟨j, -, hend⟩⟩ := hgoes
  · refine ⟨?_, hnone⟩
    have hplaced := h.marks.placed_eq
    rw [hmarks, filter_append, filter_cons_of_pos (isOf_jump hn), filterMap_append,
      List.getLast?_eq_none_iff.1 hnone, nil_append, filterMap_cons_none rfl, hlater,
      filterMap_placed? (fun _ => rfl) (Construct.marks _ _), placed_select] at hplaced
    have htests (k : Nat) (rest : List Label) : (((List.range k).flatMap fun i =>
        [Label.matchTest n i, .matchArm n i]) ++
        .matchFail n :: rest).takeWhile (· ≠ .matchFail n) =
          (List.range k).flatMap fun i => [Label.matchTest n i, .matchArm n i] := by
      have hne (l : Label) (hl : l ∈ (List.range k).flatMap fun i => [Label.matchTest n i, .matchArm n i]) :
          decide (l ≠ .matchFail n) = true := by
        grind
      rw [takeWhile_append_of_pos hne, takeWhile_cons_of_neg (by simp), append_nil]
    have hlength := congrArg (fun l => (l.takeWhile (· ≠ .matchFail n)).length) hplaced
    simp only [htests] at hlength
    simp [length_flatMap] at hlength
    omega
  · cases k with
    | zero => cases hhead
    | succ => simp [List.range_succ_eq_map] at hhead
  · rw [hnext] at hend
    split at hend <;> cases hend

/-- After the start of an arm the match goes on. -/
theorem exists_later (h : g.Selects n arms valued) (hmarks : g.marks = before ++ after)
    (hstage : Mark.stage n before = some (.matchArm n k)) : ∃ m ∈ after, m.isOf n = true := by
  by_contra! hnone
  have hplaced := h.marks.placed_eq
  rw [filterMap_placed? (fun _ => rfl) (Construct.marks _ _), placed_select, hmarks, filter_append,
    filter_eq_nil_iff.2 hnone, append_nil] at hplaced
  rw [Mark.stage, hplaced] at hstage
  simp at hstage

/-- Whatever stands after the start of an arm and before the next block of the match is inside of the match. -/
theorem inside (h : g.Selects n arms valued) (hmarks : g.marks = before ++ m :: after)
    (hstage : Mark.stage n before = some (.matchArm n k)) {n' : Nat} (hm : m.number? = some n') (hne : n' ≠ n) :
    n < n' := by
  obtain ⟨later, hlater, hlaterOf⟩ := h.exists_later hmarks hstage
  obtain ⟨first, hfirst, hplaced⟩ := mem_filterMap.1 (mem_of_getLast? hstage)
  rw [mem_filter] at hfirst
  have hlater' : later ∈ after := by
    refine (mem_cons.1 hlater).resolve_left fun heq => hne ?_
    rw [heq] at hlaterOf
    exact Option.some.inj (hm.symm.trans (of_decide_eq_true hlaterOf))
  have hsublist : [first, m, later].Sublist g.marks := by
    rw [hmarks]
    exact (singleton_sublist.2 hfirst.1).append (.cons_cons m (singleton_sublist.2 hlater'))
  have hbefore := h.nested n first m later hsublist hfirst.2 hlaterOf
  simp only [Mark.before, hm, Option.all_some, decide_eq_false_iff_not, Nat.not_lt] at hbefore
  omega

/-- No block of the match starts between two marks of a construct inside of an arm. -/
theorem stage_inner (h : g.Selects n arms valued) {inner : List Mark} {first last : Mark} {n' : Nat}
    (hmarks : g.marks = before ++ first :: (inner ++ last :: after)) (hfirst : first.number? = some n')
    (hlast : last.number? = some n') (hne : n' ≠ n) (hstage : Mark.stage n before = some (.matchArm n k) ∨
      Mark.stage n (before ++ first :: inner) = some (.matchArm n k)) :
    Mark.stage n (before ++ first :: inner) = Mark.stage n before := by
  have hlt : n < n' := by
    rcases hstage with hstage | hstage
    · exact h.inside hmarks hstage hfirst hne
    · have hmarks' : g.marks = (before ++ first :: inner) ++ last :: after := by
        rw [hmarks]
        simp
      exact h.inside hmarks' hstage hlast hne
  refine stage_append fun label hlabel hn => ?_
  rcases mem_cons.1 hlabel with rfl | hlabel
  · exact hne (Option.some.inj (hfirst.symm.trans hn))
  · have hsublist : [first, .place label, last].Sublist g.marks := by
      rw [hmarks]
      refine (List.Sublist.cons_cons first ?_).trans (sublist_append_right _ _)
      exact (singleton_sublist.2 hlabel).append (singleton_sublist.2 mem_cons_self)
    have hbefore := h.nested n' first _ last hsublist (decide_eq_true hfirst) (decide_eq_true hlast)
    rw [before_of_isOf hlt (isOf_place hn)] at hbefore
    cases hbefore

/-- Other constructs do not leave an arm of the match. -/
theorem stage_goes (h : g.Selects n arms valued) (hgoes : g.Goes l l') (hn : l'.number? ≠ some n)
    (hstage : g.stage n l = some (.matchArm n k) ∨ g.stage n l' = some (.matchArm n k)) :
    g.stage n l = g.stage n l' := by
  have hnodup := h.wellFormed.labels_nodup
  obtain ⟨before, after, hmarks, hbefore⟩ := hgoes.exists_jump hnodup n
  have hplace : .place l' ∈ g.marks := place_mem_marks.2 (hgoes.mem_labels h.wellFormed).2
  have hnot {marks : List Mark} : Mark.stage n (marks ++ [.place l']) = Mark.stage n marks :=
    stage_append fun label hlabel => by
      rw [Mark.place.inj (mem_singleton.1 hlabel)]
      exact hn
  obtain ⟨n', hn'⟩ : ∃ n', l'.number? = some n' := by
    obtain ⟨b, hb, -, hjump⟩ := hgoes
    cases l' with
    | entry => exact absurd hjump (h.wellFormed.entry_not_target b hb)
    | _ => exact ⟨_, rfl⟩
  have hne : n' ≠ n := fun heq => hn (heq ▸ hn')
  rw [hmarks, mem_append, mem_cons] at hplace
  rcases hplace with hplace | ⟨⟨⟩⟩ | hplace
  · obtain ⟨passed, inner, rfl⟩ := append_of_mem hplace
    have hmarks' : g.marks = passed ++ .place l' :: (inner ++ .jump l' :: after) := by
      rw [hmarks]
      simp
    rw [stage_eq hnodup hmarks', hnot, ← hbefore] at hstage ⊢
    exact h.stage_inner hmarks' hn' hn' hne hstage.symm
  · obtain ⟨inner, others, rfl⟩ := append_of_mem hplace
    have hmarks' : g.marks = (before ++ .jump l' :: inner) ++ .place l' :: others := by
      rw [hmarks]
      simp
    rw [stage_eq hnodup hmarks', hnot, ← hbefore] at hstage ⊢
    exact (h.stage_inner hmarks hn' hn' hne hstage).symm

/-- An arm goes to the end of its match or stays where it is. -/
theorem goes_of_arm (h : g.Selects n arms valued) (hgoes : g.Goes l l') (hstage : g.stage n l = some (.matchArm n k)) :
    l' = .matchEnd n ∨ l'.number? ≠ some n ∧ g.stage n l' = some (.matchArm n k) := by
  by_cases hn : l'.number? = some n
  · obtain ⟨later, -, ⟨hnone, -⟩ | ⟨j, htest, -⟩ | ⟨j, -, hend⟩⟩ := h.goes hgoes hn
    · rw [hstage] at hnone
      cases hnone
    · rw [hstage] at htest
      cases htest
    · exact .inl hend
  · exact .inr ⟨hn, (h.stage_goes hgoes hn (.inl hstage)).symm.trans hstage⟩

theorem mem_labels (h : g.Selects n arms valued) {label : Label} :
    label ∈ g.labels ∧ label.number? = some n ↔ (∃ k < arms.length, label = .matchTest n k ∨ label = .matchArm n k) ∨
    label = .matchFail n ∨ label = .matchEnd n := by
  have hmem : label ∈ g.labels ∧ label.number? = some n ↔ label ∈ g.labels.filter (·.number? = some n) := by
    simp
  rw [hmem, h.labels_eq]
  simp

/-- From the start of an arm no other block of its match is reached before the end. -/
theorem arm_apart (h : g.Selects n arms valued) (hk : k < arms.length)
    (hway : Relation.TransGen (fun l l' => g.Goes l l' ∧ l ≠ .matchEnd n) (.matchArm n k) l) :
    l.number? = some n → l = .matchEnd n := by
  have hstays : l = .matchEnd n ∨ l.number? ≠ some n ∧ g.stage n l = some (.matchArm n k) := by
    induction hway with
    | single hgoes =>
      have harm : .matchArm n k ∈ g.labels ∧ (Label.matchArm n k).number? = some n :=
        h.mem_labels.2 (.inl ⟨k, hk, .inr rfl⟩)
      exact h.goes_of_arm hgoes.1 (stage_self h.wellFormed.labels_nodup harm.1 harm.2)
    | tail _ hgoes ih =>
      rcases ih with hend | ⟨-, hstage⟩
      · exact absurd hend hgoes.2
      · exact h.goes_of_arm hgoes.1 hstage
  exact fun hn => hstays.resolve_right fun hother => hother.1 hn

/-- Whatever follows the start of an arm is reached through this start. -/
theorem arm_mem_path (h : g.Selects n arms valued) (hpath : g.Path passed) :
    ∀ l ∈ passed.head?, g.stage n l = some (.matchArm n k) → .matchArm n k ∈ passed := by
  induction hpath with
  | entry =>
    rintro _ ⟨⟩ hstage
    have hfirst := h.wellFormed.entry_first
    rw [labels, List.head?_map, Option.map_eq_some_iff] at hfirst
    obtain ⟨b, hb, hentry⟩ := hfirst
    obtain ⟨others, hblocks⟩ := List.head?_eq_some_iff.1 hb
    simp [stage, IrFunction.marks, hblocks, IrBlock.marks, hentry, Mark.stage, Mark.isOf, Mark.number?,
      Label.number?] at hstage
  | @step b _ target _ mem jump ih =>
    rintro _ ⟨⟩ hstage
    have hgoes : g.Goes b.label target := ⟨b, mem, rfl, jump⟩
    by_cases hn : target.number? = some n
    · rw [stage_self h.wellFormed.labels_nodup (hgoes.mem_labels h.wellFormed).2 hn] at hstage
      cases hstage
      exact mem_cons_self
    · rw [← h.stage_goes hgoes hn (.inr hstage)] at hstage
      exact mem_cons_of_mem _ (ih _ rfl hstage)

/-- The end of a match is reached through its arms. -/
theorem arm_mem_path_end (h : g.Selects n arms valued) (hpath : g.Path (.matchEnd n :: passed)) :
    ∃ k < arms.length, .matchArm n k ∈ passed := by
  cases hpath with
  | @step b _ _ path mem jump =>
    have hgoes : g.Goes b.label (.matchEnd n) := ⟨b, mem, rfl, jump⟩
    obtain ⟨later, -, ⟨-, hne⟩ | ⟨j, -, -, hne⟩ | ⟨j, hstage, -⟩⟩ := h.goes hgoes rfl
    · exact absurd rfl hne
    · exact absurd rfl hne
    · have hmem := mem_labels_of_stage h.wellFormed.labels_nodup (hgoes.mem_labels h.wellFormed).1 hstage
      have hj := h.mem_labels.1 ⟨hmem, rfl⟩
      exact ⟨j, by simpa using hj, h.arm_mem_path path _ rfl hstage⟩

theorem count_eq (h : g.Selects n arms valued) (hway : m.isWay = false) (hm : m.isOf n = true) :
    g.insts.countP (·.mark? = some m) = (((select arms valued).marks n).filter (·.isCode)).count m := by
  rw [IrFunction.insts, ← count_marks hway, ← h.marks.count_eq fun label heq => by rw [heq] at hway; cases hway]
  exact (count_filter hm).symm

/-- A match with a value has one store in every arm, if all of them write the value. -/
theorem arm_store (h : g.Selects n arms valued) (harms : ∀ writes ∈ arms, writes = true) (hk : k < arms.length) :
    ∃ passed b body others, g.blocks = passed ++ b :: (body ++ others) ∧ b.label = .matchArm n k ∧
      (∀ c ∈ body, c.label.number? ≠ some n) ∧
      others.head?.map (·.label) = some (next n (k + 1) (arms.drop (k + 1))) ∧
      ((b :: body).flatMap (·.insts)).countP (·.mark? = some (.store n)) = 1 := by
  have hsplit : arms = arms.take k ++ true :: arms.drop (k + 1) := by
    rw [← harms _ (getElem_mem hk), getElem_cons_drop, take_append_drop]
  obtain ⟨before, after, hplan⟩ := select_arm n (arms.take k) true (arms.drop (k + 1)) valued
  rw [← hsplit, length_take_of_le (Nat.le_of_lt hk)] at hplan
  have hfollow := h.marks
  rw [hplan] at hfollow
  -- The marks of the match at the arm, up to its next block, and the code that they stand in.
  obtain ⟨first, _, hfirst, -, hfollow⟩ := hfollow.of_place
  obtain ⟨own, later, rfl, hown, -⟩ := hfollow.of_place
  obtain ⟨marks, _, hmarks, -, hafter⟩ := exists_of_filter_eq hfirst
  obtain ⟨inner, last, rfl, rfl, -⟩ := exists_of_filter_eq hafter
  obtain ⟨passed, b, rest, hblocks, hb, -, hrest⟩ := exists_of_marks hmarks
  obtain ⟨more, rfl, hmore⟩ := exists_append_of_not_mem hrest.symm place_not_mem_body
  obtain ⟨body, c, others, rfl, hc, rfl, -⟩ := exists_of_marks hmore
  refine ⟨passed, b, body, c :: others, hblocks, hb, fun d hd hn => ?_, congrArg some hc, ?_⟩
  · have hplace : .place d.label ∈ body.flatMap (·.marks) := place_mem_marks.2 (mem_map_of_mem hd)
    have hmem := hown.sublist.subset (mem_filter.2 ⟨mem_append_right _ hplace, isOf_place hn⟩)
    simp at hmem
  · have hcount := hown.count_eq (m := .store n) (by simp)
    rw [count_filter (show (store n).isOf n = true from decide_eq_true rfl)] at hcount
    rw [← count_marks rfl, flatMap_cons, IrBlock.marks, cons_append, count_cons_of_ne (by simp), hcount]
    simp

end Selects

end IrFunction

end LocLang
