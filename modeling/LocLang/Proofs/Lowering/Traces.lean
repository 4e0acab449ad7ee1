import LocLang.Proofs.Lowering.Growth

namespace LocLang

open List

variable {α : Type} {first last : List α}

/-- What is kept of a list stands in the list. -/
theorem exists_of_filter_eq {p : α → Bool} {l : List α} {a : α} (h : l.filter p = first ++ a :: last) :
    ∃ before after, l = before ++ a :: after ∧ before.filter p = first ∧ after.filter p = last := by
  obtain ⟨l1, l2, rfl, rfl, hrest⟩ := filter_eq_append_iff.1 h
  obtain ⟨l3, after, rfl, hnone, -, rfl⟩ := filter_eq_cons_iff.1 hrest
  refine ⟨l1 ++ l3, after, by simp, ?_, rfl⟩
  rw [filter_append, filter_eq_nil_iff.2 hnone, append_nil]

theorem sublist_of_head_not_mem {a : α} {l : List α} (h : (a :: l).Sublist (first ++ last))
    (ha : a ∉ first) : (a :: l).Sublist last := by
  obtain ⟨l1, l2, heq, h1, h2⟩ := sublist_append_iff.1 h
  cases l1 with
  | nil => exact heq ▸ h2
  | cons =>
    obtain ⟨rfl, -⟩ := cons.inj heq
    exact absurd (h1.subset mem_cons_self) ha

theorem sublist_of_last_not_mem {a b c : α} (h : [a, b, c].Sublist (first ++ last))
    (hc : c ∉ last) : [a, b, c].Sublist first := by
  rw [← reverse_sublist] at h ⊢
  rw [reverse_append] at h
  exact sublist_of_head_not_mem h (by simpa using hc)

namespace Mark

variable {n : Nat} {label : Label} {m : Mark} {n' : Nat}

/-- Whether the construct, if it is one, got its number before `n`. -/
def before (n : Nat) (m : Mark) : Bool :=
  m.number?.all (· < n)

/-- Whether it is a use of the number `n`. -/
def isOf (n : Nat) (m : Mark) : Bool :=
  m.number? = some n

theorem isOf_place (h : label.number? = some n) : (place label).isOf n = true :=
  decide_eq_true h

theorem isOf_jump (h : label.number? = some n) : (jump label).isOf n = true :=
  decide_eq_true h

theorem before_mono (h : n ≤ n') (hm : m.before n = true) : m.before n' = true := by
  cases hnumber : m.number? <;> simp_all [before]
  omega

theorem before_of_isOf (h : n < n') (hm : m.isOf n = true) : m.before n' = true := by
  simp_all [before, isOf]

theorem isOf_eq_false (h : n' ≤ n) (hm : m.before n' = true) : m.isOf n = false := by
  cases hnumber : m.number? <;> simp_all [before, isOf]
  omega

theorem number?_of_placed? (h : m.placed? = some label) : m.number? = label.number? := by
  cases m <;> cases h
  rfl

/-- The blocks that start are part of the code, and of the control flow. -/
theorem filterMap_placed? {sort : Mark → Bool} (hsort : ∀ label, sort (.place label) = true) (marks : List Mark) :
    (marks.filter sort).filterMap (·.placed?) = marks.filterMap (·.placed?) := by
  rw [filterMap_filter]
  refine filterMap_congr fun m _ => ?_
  cases m with
  | place => simp [hsort]
  | _ => simp

theorem filter_isWay (marks : List Mark) : (marks.filter (·.isCode)).filter (·.isWay) = marks.filter (·.isWay) := by
  rw [filter_filter]
  refine filter_congr fun m _ => ?_
  cases m <;> rfl

/-- Whether marks of one sort, which `sort` tells, come from work that numbers its constructs from `lo` to `hi`, and
    uses the numbers of the constructs around it as in `own`. -/
structure Fits (sort : Mark → Bool) (rules : TreeRules) (own : List Mark) (lo hi : Nat) (marks : List Mark) : Prop where
  le : lo ≤ hi
  own : Follow (marks.filter (·.before lo)) (own.filter sort)
  bound : ∀ m ∈ marks, m.before hi = true
  shape : ∀ n, lo ≤ n → n < hi → ∃ k : Construct, k.Allowed rules ∧
    Follow (marks.filter (·.isOf n)) ((k.marks n).filter sort)
  nested : ∀ n first m last, lo ≤ n → [first, m, last].Sublist marks → first.isOf n = true → last.isOf n = true →
    m.before n = false

namespace Fits

variable {sort : Mark → Bool} {rules : TreeRules} {own own' marks marks' : List Mark} {lo mid hi : Nat}

theorem step (hown : ∀ m ∈ own, m.before lo = true)
    (h : Follow marks (own.filter sort)) : Fits sort rules own lo lo marks := by
  have hbefore (m : Mark) (hm : m ∈ marks) : m.before lo = true := hown m (mem_of_mem_filter (h.sublist.subset hm))
  refine ⟨Nat.le_refl _, ?_, hbefore, fun n hlo hhi => absurd hhi (Nat.not_lt.2 hlo),
    fun n first m last hn hsublist hfirst => ?_⟩
  · rwa [filter_eq_self.2 hbefore]
  · rw [isOf_eq_false hn (hbefore first (hsublist.subset mem_cons_self))] at hfirst
    cases hfirst

theorem append (h : Fits sort rules own lo mid marks) (h' : Fits sort rules own' mid hi marks')
    (hown : ∀ m ∈ own', m.before lo = true) : Fits sort rules (own ++ own') lo hi (marks ++ marks') := by
  -- What comes later uses of the numbers up to `mid` only those from before `lo`.
  have hlater (m : Mark) (hm : m ∈ marks') (hmid : m.before mid = true) : m.before lo = true :=
    hown m (mem_of_mem_filter (h'.own.sublist.subset (mem_filter.2 ⟨hm, hmid⟩)))
  have hnone {n : Nat} (hlo : lo ≤ n) (hmid : n < mid) (m : Mark) (hm : m ∈ marks') : m.isOf n = false := by
    by_contra hof
    rw [Bool.not_eq_false] at hof
    exact absurd (isOf_eq_false hlo (hlater m hm (before_of_isOf hmid hof))) (by simp [hof])
  have hfirst {n : Nat} (hmid : mid ≤ n) (m : Mark) (hm : m ∈ marks) : m.isOf n = false :=
    isOf_eq_false hmid (h.bound m hm)
  refine ⟨Nat.le_trans h.le h'.le, ?_, fun m hm => ?_, fun n hlo hhi => ?_,
    fun n first m last hn hsublist hof hof' => ?_⟩
  · have heq : marks'.filter (·.before lo) = marks'.filter (·.before mid) :=
      filter_congr fun m hm => Bool.eq_iff_iff.2 ⟨before_mono h.le, hlater m hm⟩
    rw [filter_append, filter_append, heq]
    exact h.own.append h'.own
  · rcases mem_append.1 hm with hm | hm
    · exact before_mono h'.le (h.bound m hm)
    · exact h'.bound m hm
  · rw [filter_append]
    rcases Nat.lt_or_ge n mid with hmid | hmid
    · have hnil : marks'.filter (·.isOf n) = [] := filter_eq_nil_iff.2 fun m hm => by simp [hnone hlo hmid m hm]
      rw [hnil, append_nil]
      exact h.shape n hlo hmid
    · have hnil : marks.filter (·.isOf n) = [] := filter_eq_nil_iff.2 fun m hm => by simp [hfirst hmid m hm]
      rw [hnil, nil_append]
      exact h'.shape n hmid hhi
  · rcases Nat.lt_or_ge n mid with hmid | hmid
    · refine h.nested n first m last hn (sublist_of_last_not_mem hsublist fun hlast => ?_) hof hof'
      simp [hnone hn hmid last hlast] at hof'
    · refine h'.nested n first m last hmid (sublist_of_head_not_mem hsublist fun hmem => ?_) hof hof'
      simp [hfirst hmid first hmem] at hof

theorem filter_isOf (h : Fits sort rules own lo hi marks) (hown : ∀ m ∈ own, m.isOf n = true) (hn : n < lo) :
    Follow (marks.filter (·.isOf n)) (own.filter sort) := by
  have heq : marks.filter (·.isOf n) = marks.filter (·.before lo) :=
    filter_congr fun m hm => Bool.eq_iff_iff.2 ⟨before_of_isOf hn, fun hbefore =>
      hown m (mem_of_mem_filter (h.own.sublist.subset (mem_filter.2 ⟨hm, hbefore⟩)))⟩
  exact heq ▸ h.own

theorem numbered {k : Construct} (h : Fits sort rules (k.marks n) (n + 1) hi marks) (hk : k.Allowed rules) :
    Fits sort rules [] n hi marks := by
  have hown (m : Mark) (hm : m ∈ k.marks n) : m.isOf n = true := by
    simp [isOf, Construct.number?_of_mem_marks m hm]
  have hnone (m : Mark) (hm : m ∈ marks) : m.before n = false := by
    by_contra hbefore
    rw [Bool.not_eq_false] at hbefore
    have hmem := h.own.sublist.subset (mem_filter.2 ⟨hm, before_mono (Nat.le_succ n) hbefore⟩)
    have hnot := isOf_eq_false (Nat.le_refl n) hbefore
    rw [hown m (mem_of_mem_filter hmem)] at hnot
    cases hnot
  refine ⟨Nat.le_of_succ_le h.le, ?_, h.bound, fun n' hlo hhi => ?_, fun n' first m last hn hsublist hof hof' => ?_⟩
  · rw [filter_eq_nil_iff.2 fun m hm => by simp [hnone m hm]]
    exact .nil
  · rcases Nat.eq_or_lt_of_le hlo with rfl | hlt
    · exact ⟨k, hk, h.filter_isOf hown (Nat.lt_succ_self n)⟩
    · exact h.shape n' hlt hhi
  · rcases Nat.eq_or_lt_of_le hn with rfl | hlt
    · exact hnone m (hsublist.subset (by simp))
    · exact h.nested n' first m last hlt hsublist hof hof'

/-- All marks of a whole belong to constructs that are numbered there. -/
theorem number (h : Fits sort rules [] lo hi marks) (hm : m ∈ marks) : ∃ n, m.number? = some n ∧ lo ≤ n ∧ n < hi := by
  have hbound := h.bound m hm
  have hown : m.before lo = false := by
    by_contra hbefore
    rw [Bool.not_eq_false] at hbefore
    cases h.own.sublist.subset (mem_filter.2 ⟨hm, hbefore⟩)
  cases hnumber : m.number? with
  | none => simp [before, hnumber] at hown
  | some n => exact ⟨n, rfl, by simpa [before, hnumber] using hown, by simpa [before, hnumber] using hbound⟩

/-- What a construct does not use its number for twice occurs once in a whole. -/
theorem nodup {β : Type} {use : Mark → Option β} (h : Fits sort rules [] lo hi marks)
    (huse : ∀ m m' b, use m = some b → use m' = some b → m.number? = m'.number?)
    (hnodup : ∀ (k : Construct) n, (((k.marks n).filter sort).filterMap use).Nodup) : (marks.filterMap use).Nodup := by
  rw [Nodup, pairwise_filterMap, pairwise_iff_forall_sublist]
  intro m m' hsublist b hb b' hb' heq
  subst heq
  obtain ⟨n, hn, hlo, hhi⟩ := h.number (hsublist.subset mem_cons_self)
  obtain ⟨k, -, hshape⟩ := h.shape n hlo hhi
  have hfilter := hsublist.filter (·.isOf n)
  simp only [isOf, hn, huse m m' b hb hb' ▸ hn, decide_true, filter_cons_of_pos, filter_nil] at hfilter
  have htwice := (hfilter.trans hshape.sublist).filterMap use
  simp only [filterMap_cons, hb, hb', filterMap_nil] at htwice
  exact absurd (htwice.nodup (hnodup k n)) (by simp)

/-- Every way goes on to a later block, or it is the way back of a loop from its body. -/
theorem land {before after : List Mark} (h : Fits (·.isWay) rules [] lo hi (before ++ .jump label :: after)) :
    .place label ∈ after ∨ rules.loop ∧ ∃ n, label = .whileCond n ∧ .place (.whileCond n) ∈ before ∧
      .place (.whileBody n) ∈ before ∧ .place (.whileEnd n) ∈ after := by
  obtain ⟨n, hn, hlo, hhi⟩ := h.number (m := .jump label) (by simp)
  obtain ⟨k, hk, hshape⟩ := h.shape n hlo hhi
  rw [filter_append, filter_cons_of_pos (by simpa [isOf] using hn)] at hshape
  obtain ⟨before', after', hplan, hbefore, hafter⟩ := hshape.split
  obtain ⟨first, last, hmarks, rfl, rfl⟩ := exists_of_filter_eq hplan
  have hmem {l : Label} {planned marks : List Mark}
      (hfollow : Follow (marks.filter (·.isOf n)) (planned.filter (·.isWay))) (hl : .place l ∈ planned) :
      .place l ∈ marks :=
    mem_of_mem_filter (hfollow.mem (mem_filter.2 ⟨hl, rfl⟩) (by simp))
  rcases Construct.land hmarks with hplace | ⟨rfl, rfl, hcond, hbody, hend⟩
  · exact .inl (hmem hafter hplace)
  · exact .inr ⟨hk, n, rfl, hmem hbefore hcond, hmem hbefore hbody, hmem hafter hend⟩

end Fits

end Mark

/-- What a change to the code uses the numbers of constructs for. -/
def Edit.marks : Edit → List Mark
  | place label => [.place label]
  | append _ inst => inst.mark?.toList
  | close _ term => term.targets.map .jump
  | allocate slot => slot.name.mark?.toList

/-- The marks in the code of a function, in their order. -/
def IrFunction.marks (f : IrFunction) : List Mark :=
  f.blocks.flatMap (·.marks)

theorem Inst.placed_marks (insts : List Inst) : (insts.filterMap (·.mark?)).filterMap (·.placed?) = [] := by
  rw [filterMap_filterMap, filterMap_eq_nil_iff]
  intro i _
  cases hmark : i.mark? with
  | none => rfl
  | some => obtain ⟨n, rfl | rfl⟩ := Inst.eq_of_mark? hmark <;> rfl

theorem IrBlock.placed_marks (b : IrBlock) : b.marks.filterMap (·.placed?) = [b.label] := by
  simp [marks, Inst.placed_marks, filterMap_map]

namespace Draft

variable {S : Lower.Scheme} {c : Bool} {own : List Mark} {edits : List Edit} {d d' : Draft}

/-- The constructs of all work stand in code as planned, where names refer to no slot that is marked. -/
theorem Course.fits {sort : Mark → Bool}
    (hS : ∀ i : Inst, (∀ s ∈ i.address?, S.slot s) → ∀ m ∈ i.mark?, sort m = false) (h : Course S c own edits d d')
    (hown : ∀ m ∈ own, m.before d.labels = true) :
    Mark.Fits sort S.rules own d.labels d'.labels ((edits.flatMap (·.marks)).filter sort) := by
  induction h with
  | trans _ _ ih ih' =>
    rw [forall_mem_append] at hown
    rw [flatMap_append, filter_append]
    have hfirst := ih hown.1
    exact hfirst.append (ih' fun m hm => Mark.before_mono hfirst.le (hown.2 m hm)) hown.2
  | skip label =>
    refine .step hown ?_
    by_cases hsort : sort (.jump label) = true
    · simpa [hsort] using Mark.Follow.skip label .nil
    · simpa [hsort] using Mark.Follow.nil
  | append _ _ address =>
    refine .step hown ?_
    rcases address with rfl | ⟨rfl, haddress⟩
    · simpa [Edit.marks] using Mark.Follow.refl _
    · have hnone := filter_eq_nil_iff.2 fun m hm => Bool.not_eq_true _ ▸ hS _ haddress m (Option.mem_toList.1 hm)
      simpa [Edit.marks, hnone] using Mark.Follow.nil
  | inScope _ ih => exact ih hown
  | numbered _ _ allowed ih =>
    refine (ih fun m hm => ?_).numbered allowed
    simp [Mark.before, Construct.number?_of_mem_marks m hm]
  | _ => exact .step hown (by simpa [Edit.marks, SlotName.mark?, Terminator.targets] using Mark.Follow.refl _)

/-- Names can refer to any slot as far as the control flow is concerned. -/
theorem Course.fits_ways (h : Course S c own edits d d') (hown : ∀ m ∈ own, m.before d.labels = true) :
    Mark.Fits (·.isWay) S.rules own d.labels d'.labels ((edits.flatMap (·.marks)).filter (·.isWay)) := by
  refine h.fits (fun i _ m hm => ?_) hown
  obtain ⟨n, rfl | rfl⟩ := Inst.eq_of_mark? hm <;> rfl

/-- Only the last part of the marks is new. -/
theorem Course.marks_eq (h : Course S c own edits d d') :
    d'.marks = d.marks ++ (edits.flatMap (·.marks)).filter (·.isCode) := by
  induction h with
  | trans _ _ ih ih' => rw [ih', ih, flatMap_append, filter_append, append_assoc]
  | @append _ _ _ _ i isOpen _ _ =>
    have hcode : i.mark?.toList.filter (·.isCode) = i.mark?.toList := by
      refine filter_eq_self.2 fun m hm => ?_
      obtain ⟨n, rfl | rfl⟩ := Inst.eq_of_mark? (Option.mem_toList.1 hm) <;> rfl
    rw [marks_append isOpen, flatMap_singleton, Edit.marks, hcode]
  | «variable» d hname type | result d n type => simp [marks, Edit.marks, SlotName.mark?]
  | @close _ _ _ isOpen t _ =>
    have hcode : (t.targets.map Mark.jump).filter (·.isCode) = t.targets.map .jump := filter_eq_self.2 (by simp)
    rw [marks_close isOpen, flatMap_singleton, Edit.marks, hcode]
  | place isClosed => exact marks_place isClosed _
  | fail isClosed => simp [marks, isClosed, Edit.marks, IrBlock.marks, Terminator.targets, filter_cons]
  | inScope _ ih => exact ih
  | numbered _ _ _ ih => exact ih
  | _ => simp [marks]

theorem Course.slotMarks_eq (h : Course S c own edits d d') : d'.slots.filterMap (·.name.mark?) =
      d.slots.filterMap (·.name.mark?) ++ (edits.flatMap (·.marks)).filter (!·.isCode) := by
  induction h with
  | trans _ _ ih ih' => rw [ih', ih, flatMap_append, filter_append, append_assoc]
  | @append _ _ _ _ i _ _ _ =>
    have hcode : i.mark?.toList.filter (!·.isCode) = [] := by
      refine filter_eq_nil_iff.2 fun m hm => ?_
      obtain ⟨n, rfl | rfl⟩ := Inst.eq_of_mark? (Option.mem_toList.1 hm) <;> simp
    simp [Edit.marks, hcode]
  | «variable» d hname type | result d n type => simp [Edit.marks, SlotName.mark?]
  | place => simp [Edit.marks]
  | fail => simp [Edit.marks, Terminator.targets]
  | close => simp [Edit.marks]
  | inScope _ ih => exact ih
  | numbered _ _ _ ih => exact ih
  | _ => simp

/-- What is drafted from a start on has different slot names. -/
theorem Course.nodup_slots (h : Course S c [] edits d d') (hslots : d.slots = []) : (d'.slots.map (·.name)).Nodup := by
  have hfits : Mark.Fits (!·.isCode) S.rules [] d.labels d'.labels ((edits.flatMap (·.marks)).filter (!·.isCode)) := by
    refine h.fits (fun i _ m hm => ?_) (by simp)
    obtain ⟨n, rfl | rfl⟩ := Inst.eq_of_mark? hm <;> rfl
  have hresults : (d'.slots.filterMap (·.name.mark?)).Nodup := by
    rw [h.slotMarks_eq, hslots, filterMap_nil, nil_append, ← filterMap_some (l := filter _ _)]
    refine hfits.nodup (fun m m' b hm hm' => ?_) fun k n => ?_
    · cases hm
      cases hm'
      rfl
    · rw [filterMap_some]
      exact Construct.nodup_allocate n k
  rw [Nodup, pairwise_filterMap, pairwise_iff_getElem] at hresults
  rw [Nodup, pairwise_map, pairwise_iff_getElem]
  intro i j hi hj hlt heq
  -- The names of variables carry the places of their slots; those of results are uses of different numbers.
  cases hname : d'.slots[i].name with
  | named name index =>
    have hplace (k : Nat) (hk : k < d'.slots.length) (hnamed : d'.slots[k].name = .named name index) : index = k :=
      h.grows.named k _ name index (by simp [hslots]) (getElem?_eq_getElem hk) hnamed
    have hi' := hplace i hi hname
    have hj' := hplace j hj (heq ▸ hname)
    omega
  | result n =>
    refine hresults i j hi hj hlt (.allocate n) ?_ (.allocate n) ?_ rfl
    · rw [hname]
      rfl
    · rw [← heq, hname]
      rfl

/-- The labels of the blocks can be read off the marks. -/
theorem placed_marks (d : Draft) : d.marks.filterMap (·.placed?) = d.blockLabels := by
  rw [marks, blockLabels, filterMap_append, filterMap_flatMap]
  simp only [IrBlock.placed_marks, map_eq_flatMap]
  cases d.current <;> simp [Inst.placed_marks]

theorem marks_finished (h : d.current = none) : d.finished.flatMap (·.marks) = d.marks := by
  have halloca (slots : List Slot) : (slots.map Inst.alloca).filterMap (·.mark?) = [] := by
    simp [filterMap_map, Inst.mark?]
  cases hclosed : d.closed with
  | nil => simp [marks, finished_of_nil hclosed, hclosed, h]
  | cons => simp [marks, finished_of_cons hclosed, hclosed, h, IrBlock.marks, halloca]

/-- What is drafted from an open entry on has different labels. -/
theorem Course.nodup_labels (h : Course S c [] edits d d') (hstart : d.marks = [.place .entry]) :
    d'.blockLabels.Nodup ∧ d'.blockLabels.head? = some .entry := by
  have hlabels : d'.blockLabels = .entry :: ((edits.flatMap (·.marks)).filter (·.isWay)).filterMap (·.placed?) := by
    rw [← placed_marks, h.marks_eq, hstart, singleton_append, filterMap_cons,
      Mark.filterMap_placed? fun _ => rfl, Mark.filterMap_placed? fun _ => rfl]
    rfl
  rw [hlabels, nodup_cons]
  have hfits := h.fits_ways (by simp)
  refine ⟨⟨fun hentry => ?_, hfits.nodup (fun m m' l hm hm' => ?_) fun k n => ?_⟩, rfl⟩
  · obtain ⟨m, hm, hplaced⟩ := mem_filterMap.1 hentry
    obtain ⟨n, hn, -⟩ := hfits.number hm
    rw [Mark.number?_of_placed? hplaced] at hn
    cases hn
  · rw [Mark.number?_of_placed? hm, Mark.number?_of_placed? hm']
  · rw [Mark.filterMap_placed? fun _ => rfl]
    exact Construct.nodup_placed n k

/-- Only where no arm of a match matches, code goes nowhere. -/
theorem Course.unreachable (h : Course S c own edits d d') {b : IrBlock} (hb : b ∈ d'.closed) (hnew : b ∉ d.closed)
    (hterm : b.term = .unreachable) : ∃ n, b.label = .matchFail n := by
  induction h with
  | @trans _ _ _ _ _ _ d1 _ _ _ ih ih' =>
    by_cases hfirst : b ∈ d1.closed
    · exact ih hfirst hnew
    · exact ih' hb hfirst
  | close _ reached =>
    rcases mem_append.1 hb with hb | hb
    · exact absurd hb hnew
    · rw [mem_singleton.1 hb] at hterm
      exact absurd hterm reached
  | fail _ n =>
    rcases mem_append.1 hb with hb | hb
    · exact absurd hb hnew
    · exact ⟨n, by rw [mem_singleton.1 hb]⟩
  | inScope _ ih => exact ih hb hnew
  | numbered _ _ _ ih => exact ih hb hnew
  | _ => exact absurd hb hnew

end Draft

/-- The end of a function adds no marks. -/
theorem Lower.marks_terminateIfOpen {t : Terminator} {d d' : Draft} {u : Unit} (h : (terminateIfOpen t).Gives d u d')
    (ht : t.targets = []) : d'.marks = d.marks ∧ d'.slots = d.slots ∧ d'.labels = d.labels ∧ d'.current = none := by
  rcases gives_terminateIfOpen.1 h with h | ⟨hclosed, rfl⟩
  · obtain ⟨b, hb, rfl⟩ := gives_terminate.1 h
    exact ⟨by rw [Draft.marks_close hb, ht, map_nil, append_nil], rfl, rfl, rfl⟩
  · exact ⟨rfl, rfl, rfl, hclosed⟩

end LocLang
