import LocLang.Proofs.Lowering.Stages
import LocLang.Proofs.Matches.Tests
import LocLang.Proofs.Parser.Trees

namespace LocLang

open Lower List

namespace Lower

section

variable {env : Env} {type note : Ty} {span : Span} {scrutinee : Expr Ty} {arms : List (Arm Ty)} {n : Nat}
  {v result : Operand} {slot : Option Slot} {d d' d1 : Draft}

theorem marks_terminate {t : Terminator} {u : Unit} (h : (terminate t).Gives d u d') :
    d'.marks = d.marks ++ t.targets.map .jump := by
  obtain ⟨b, hb, rfl⟩ := gives_terminate.1 h
  exact Draft.marks_close hb t

theorem marks_place {label : Label} {u : Unit} (h : (place label).Gives d u d') :
    d'.marks = d.marks ++ [.place label] := by
  obtain ⟨hb, rfl⟩ := gives_place.1 h
  exact Draft.marks_place hb label

theorem marks_loadResult (h : (loadResult (slotFor n type)).Gives d v d') :
    d'.marks = d.marks ++ if Built.valued type then [.load n] else [] := by
  by_cases hvoid : type = .void ∨ type = .unknown
  · rw [slotFor, if_pos hvoid] at h
    obtain ⟨-, rfl⟩ := gives_pure.1 h
    simp [Built.valued, hvoid]
  · rw [slotFor, if_neg hvoid] at h
    obtain ⟨b, hb, -, rfl⟩ := gives_emitValue.1 h
    rw [Built.valued, if_pos (decide_eq_true hvoid)]
    exact Draft.marks_append hb (.load d.registers ⟨.result n, type.machine⟩)

/-- The blocks of the match itself among those of its arms. -/
theorem armList_placed (h : (armList env n v slot 0 arms).Gives d () d') (hn : n < d.labels) :
    ∃ marks, d'.marks = d.marks ++ marks ∧ (marks.filter (·.isOf n)).filterMap (·.placed?) =
      (range arms.length).flatMap fun k => [.matchTest n k, .matchArm n k] := by
  obtain ⟨edits, -, hcourse⟩ := (armList_built env n v false (fun _ v => .storeAny (fun _ => trivial) v slot) 0 arms
    (Arm.obeyAll_free arms) : Built (.of .free) false _ _).course h fun _ _ _ => trivial
  have hown (m : Mark) (hm : m ∈ Construct.armsMarks n 0 (arms.map (writes false))) : m.isOf n = true :=
    decide_eq_true (Construct.armsMarks_spec n 0 _ m hm).1
  have hfollow := (hcourse.fits_ways fun m hm => Mark.before_of_isOf hn (hown m hm)).filter_isOf hown hn
  refine ⟨_, hcourse.marks_eq, ?_⟩
  have hplaced := hfollow.placed_eq
  rw [filter_comm, Mark.filterMap_placed? fun _ => rfl,
    Mark.filterMap_placed? (fun _ => rfl) (Construct.armsMarks _ _ _), Construct.placed_armsMarks, length_map,
    ← range_eq_range'] at hplaced
  rw [filter_comm, Mark.filterMap_placed? fun _ => rfl, hplaced]

/-- What the code of a match adds to that of its scrutinee. -/
theorem selection_marks (h : (selection env type (.mk span note scrutinee arms)).Gives d result d')
    (hv : (expr env scrutinee).Gives { d with labels := d.labels + 1 } v d1) :
    ∃ b d2 marks, d1.current = some b ∧
      (armList env d.labels v (slotFor d.labels type) 0 arms).Gives { d1 with
        slots := d1.slots ++ (slotFor d.labels type).toList
        closed := d1.closed ++ [b.close (.br (nextTest d.labels 0 arms))]
        current := none } () d2 ∧ d2.Grows d' ∧
      d'.marks = d1.marks ++ .jump (nextTest d.labels 0 arms) :: (marks ++ .place (.matchFail d.labels) ::
        .place (.matchEnd d.labels) :: if Built.valued type then [.load d.labels] else []) ∧
      (marks.filter (·.isOf d.labels)).filterMap (·.placed?) =
        (range arms.length).flatMap fun k => [.matchTest d.labels k, .matchArm d.labels k] := by
  obtain ⟨v', slot, d1', d2, d3, d4, d5, d6, d7, hv', hslot, hbr, harms, hfail, hunreachable, hend, hload⟩ :=
      gives_selection h
  obtain ⟨rfl, rfl⟩ := hv.unique hv'
  obtain ⟨rfl, rfl⟩ := gives_resultSlot hslot
  obtain ⟨b, hb, hd3⟩ := gives_terminate.1 hbr
  have hlabels : d.labels < d1.labels := ((expr_grows env scrutinee).draft hv).labels
  obtain ⟨marks, hmarks, hplaced⟩ := armList_placed harms (hd3 ▸ hlabels)
  have hgrows : d4.Grows d' := ((Grows.place _).draft hfail).trans <| ((Grows.terminate _).draft hunreachable).trans <|
    ((Grows.place _).draft hend).trans ((Grows.loadResult _).draft hload)
  refine ⟨b, d4, marks, hb, hd3 ▸ harms, hgrows, ?_, hplaced⟩
  rw [marks_loadResult hload, marks_place hend, marks_terminate hunreachable, marks_place hfail, hmarks,
    marks_terminate hbr]
  simp [Terminator.targets]
  rfl

end

section

variable {enums : EnumTable} {f : FuncDef Ty} {g : IrFunction} {d d' : Draft} {n : Nat}

/-- What ends a match in a function belongs to a match, in which every arm writes the value if there is one. -/
theorem function_selects (hmodule : IsModule d.scopes) (hf : f.body.Obeys .parsed) (h : (function enums f).Gives d g d')
    (hend : .matchEnd n ∈ g.labels) :
    ∃ arms valued, g.Selects n arms valued ∧ (valued = true → ∀ writes ∈ arms, writes = true) := by
  obtain ⟨params, edits, d1, hcourse, -, hmarks⟩ :=
      function_course (S := .strict .parsed) hf h fun params name s hfinds => by
    rcases finds_declareParameters hfinds with hfinds | ⟨q, -, hslot⟩
    · obtain ⟨_, hs⟩ := hmodule.functions_only name _ hfinds
      cases hs
    · cases hslot
  have hfits : Mark.Fits (·.isCode) .parsed [] (start d params).labels d1.labels
      ((edits.flatMap (·.marks)).filter (·.isCode)) := by
    refine hcourse.fits (fun i hi m hm => ?_) (by simp)
    unfold Inst.mark? at hm
    split at hm
    · cases hi _ rfl
    · cases hi _ rfl
    · cases hm
  generalize (edits.flatMap (·.marks)).filter (·.isCode) = marks at hmarks hfits
  have hentry {m : Mark} {n : Nat} (hm : m.isOf n = true) (hmem : m ∈ g.marks) : m ∈ marks := by
    rw [hmarks] at hmem
    refine (mem_cons.1 hmem).resolve_left ?_
    rintro rfl
    cases hm
  have hmem : .place (.matchEnd n) ∈ marks :=
    hentry (n := n) (Mark.isOf_place rfl) (IrBlock.place_mem_marks.2 hend)
  obtain ⟨n', hn', hlo, hhi⟩ := hfits.number hmem
  cases hn'
  obtain ⟨k, hallowed, hshape⟩ := hfits.shape n hlo hhi
  have hplanned := hshape.sublist.subset (mem_filter.2 ⟨hmem, Mark.isOf_place rfl⟩)
  cases k with
  | only | both | loop => simp [Construct.marks] at hplanned
  | select arms valued =>
    refine ⟨arms, valued, ⟨function_wellFormed h, ?_, fun n first m last hsublist hfirst hlast => ?_⟩, fun hvalued =>
      ?_⟩
    · rwa [hmarks, filter_cons_of_neg (by simp [Mark.isOf, Mark.number?, Label.number?])]
    · have hfirst' := hentry hfirst (hsublist.subset mem_cons_self)
      obtain ⟨n', hn', hlo, -⟩ := hfits.number hfirst'
      obtain rfl : n' = n := Option.some.inj (hn'.symm.trans (of_decide_eq_true hfirst))
      rw [hmarks] at hsublist
      replace hsublist : [first, m, last].Sublist ([.place .entry] ++ marks) := hsublist
      refine hfits.nested n' first m last hlo (sublist_of_head_not_mem hsublist fun hmem => ?_) hfirst hlast
      rw [mem_singleton.1 hmem] at hfirst
      cases hfirst
    · exact (hallowed hvalued).resolve_left id

end

end Lower

namespace Program.LoweredMatch

variable {p : Program Unit} {strict : Bool}

/-- Whether the code of a match gives it a value: there is one slot for it, which is written once in every arm, from its
    start to the next block of the match, and read once, at the end of the match. -/
structure ValuedIn (m : p.LoweredMatch strict) (g : IrFunction) : Prop where
  slot : (g.insts.filterMap (·.slot?)).countP (·.name = .result m.draft.labels) = 1
  stores : g.insts.countP (·.mark? = some (.store m.draft.labels)) = m.arms.length
  arms : ∀ k < m.arms.length, ∃ passed b body others, g.blocks = passed ++ b :: (body ++ others) ∧
    b.label = .matchArm m.draft.labels k ∧ (∀ c ∈ body, c.label.number? ≠ some m.draft.labels) ∧
    others.head?.map (·.label) = some (m.next (k + 1)) ∧
    ((b :: body).flatMap (·.insts)).countP (·.mark? = some (.store m.draft.labels)) = 1
  loads : g.insts.countP (·.mark? = some (.load m.draft.labels)) = 1
  load : ∃ b ∈ g.blocks, b.label = .matchEnd m.draft.labels ∧ ∃ i ∈ b.insts, i.mark? = some (.load m.draft.labels)

/-- Whether the code of a function has a match in it as it should. -/
structure ShapedIn (m : p.LoweredMatch strict) (g : IrFunction) : Prop where
  /-- Its blocks are the tests, each with its arm, and what follows them. -/
  labels : g.labels.filter (·.number? = some m.draft.labels) =
    ((range m.arms.length).flatMap fun k => [.matchTest m.draft.labels k, .matchArm m.draft.labels k]) ++
      [.matchFail m.draft.labels, .matchEnd m.draft.labels]
  /-- The scrutinee is lowered before any of them starts. Then the first test follows, and all arms get the value. -/
  scrutinee : (∀ l ∈ m.after.blockLabels, l.number? ≠ some m.draft.labels) ∧ ∃ b d last, m.after.current = some b ∧
    (armList m.low m.draft.labels m.value (slotFor m.draft.labels m.result) 0 m.arms).Gives { m.after with
      slots := m.after.slots ++ (slotFor m.draft.labels m.result).toList
      closed := m.after.closed ++ [b.close (.br (m.next 0))]
      current := none } () d ∧ d.Grows last ∧ g.blocks = last.finished
  /-- A test goes to its arm or to the next test. -/
  tests : ∀ k < m.arms.length, ∃ b ∈ g.blocks, b.label = .matchTest m.draft.labels k ∧
    ∃ cond, b.term = .condBr cond (.matchArm m.draft.labels k) (m.next (k + 1))
  /-- From an arm no other block of the match is reached before its end. -/
  arms : ∀ k < m.arms.length, ∀ l,
    Relation.TransGen (fun l l' => g.Goes l l' ∧ l ≠ .matchEnd m.draft.labels) (.matchArm m.draft.labels k) l →
      l.number? = some m.draft.labels → l = .matchEnd m.draft.labels
  /-- The end is reached through the arms. -/
  exit : ∀ passed, g.Path (.matchEnd m.draft.labels :: passed) →
    ∃ k < m.arms.length, .matchArm m.draft.labels k ∈ passed
  value : m.result ≠ .void → m.result ≠ .unknown → m.ValuedIn g

variable {m : p.LoweredMatch strict} {g : IrFunction} {arms : List Bool} {valued : Bool}

/-- The match in the code, with the code of its scrutinee. -/
theorem exists_selects {source : Source} (hparse : source.parse = .ok p)
    (herrors : (p.analyze strict).hasErrors = false)
    (m : p.LoweredMatch strict) {target : Target} {code : IrModule}
      (hlower : (p.analyze strict).lower target = .ok code) :
    ∃ g arms valued, code.functions[m.index]? = some g ∧ g.Selects m.draft.labels arms valued ∧
      (valued = true → ∀ writes ∈ arms, writes = true) ∧ arms.length = m.arms.length ∧
      ((∀ l ∈ m.after.blockLabels, l.number? ≠ some m.draft.labels) ∧ ∃ b d last, m.after.current = some b ∧
        (armList m.low m.draft.labels m.value (slotFor m.draft.labels m.result) 0 m.arms).Gives { m.after with
          slots := m.after.slots ++ (slotFor m.draft.labels m.result).toList
          closed := m.after.closed ++ [b.close (.br (m.next 0))]
          current := none } () d ∧ d.Grows last ∧ g.blocks = last.finished) ∧
      (Built.valued m.result = true → ∃ before after,
        g.marks = before ++ .place (.matchEnd m.draft.labels) :: .load m.draft.labels :: after) := by
  obtain ⟨g, last, hg, hblocks, hlast, d', hrun, hgrows⟩ := m.lowered.doneIn hlower
  obtain ⟨v, hselection, -⟩ := gives_map.1 hrun
  obtain ⟨b, d2, inner, hb, harms, hgrows2, hmarks, hinner⟩ := selection_marks hselection m.lowers
  obtain ⟨rest, hrest⟩ := hgrows.marks
  have ha := accepts_of_hasErrors herrors
  obtain ⟨f, hf, d0, d1, hgives, hmodule⟩ := exists_checked_of_mem hlower (mem_of_getElem? hg)
  replace hrest : g.marks = m.after.marks ++ .jump (m.next 0) ::
      (inner ++ .place (.matchFail m.draft.labels) :: .place (.matchEnd m.draft.labels) ::
      ((if Built.valued m.result then [.load m.draft.labels] else []) ++ rest)) := by
    rw [IrFunction.marks, hblocks, Draft.marks_finished hlast, ← hrest, hmarks, next, drop_zero]
    simp
  have hend : .matchEnd m.draft.labels ∈ g.labels := by
    refine IrBlock.place_mem_marks.1 (show _ ∈ g.marks from ?_)
    rw [hrest]
    simp
  obtain ⟨arms, valued, hselects, hvalued⟩ := function_selects hmodule (ha.obeys (obeys_of_parse hparse) hf).body hgives
      hend
  obtain ⟨hlength, hnone⟩ := hselects.length_eq hrest hinner (by cases harms : m.arms <;> simp [next, nextTest, harms])
  refine ⟨g, arms, valued, hg, hselects, hvalued, hlength,
    ⟨fun l hl hn => ?_, b, d2, last, hb, ?_, hgrows2.trans hgrows, hblocks⟩, fun hresult => ?_⟩
  · rw [← m.after.placed_marks] at hl
    obtain ⟨mark, hmark, hplaced⟩ := mem_filterMap.1 hl
    have hof : mark.isOf m.draft.labels = true := decide_eq_true ((Mark.number?_of_placed? hplaced).trans hn)
    have hmem := mem_filterMap.2 ⟨mark, mem_filter.2 ⟨hmark, hof⟩, hplaced⟩
    rw [getLast?_eq_none_iff.1 hnone] at hmem
    cases hmem
  · rwa [next, drop_zero]
  · rw [hresult, if_pos rfl] at hrest
    refine ⟨m.after.marks ++ .jump (m.next 0) :: (inner ++ [.place (.matchFail m.draft.labels)]), rest, ?_⟩
    rw [hrest]
    simp

/-- The value of a match that has one. -/
theorem valuedIn_of_selects (h : g.Selects m.draft.labels arms valued) (hlength : arms.length = m.arms.length)
    (hvalued : valued = true → ∀ writes ∈ arms, writes = true) {code : IrModule} {slots : List Slot}
    (htyped : g.Typed code) (hassigned : g.SingleAssignment slots) {before after : List Mark}
    (hload : g.marks = before ++ .place (.matchEnd m.draft.labels) :: .load m.draft.labels :: after) : m.ValuedIn
    g := by
  obtain ⟨passed, b, others, hblocks, hb, -, hmarks⟩ := IrBlock.exists_of_marks hload
  obtain ⟨i, hi, hmark⟩ := IrBlock.exists_inst_of_marks rfl hmarks
  have hmem : b ∈ g.blocks := by
    rw [hblocks]
    simp
  obtain ⟨hstores, hloads⟩ := Construct.count_select m.draft.labels arms valued
  rw [← h.count_eq rfl (decide_eq_true rfl)] at hstores hloads
  obtain rfl : valued = true := by
    by_contra hfalse
    rw [if_neg hfalse, countP_eq_zero] at hloads
    exact hloads i (mem_flatMap.2 ⟨b, hmem, hi⟩) (decide_eq_true hmark)
  have harms := hvalued rfl
  refine ⟨?_, ?_, fun k hk => ?_, hloads, b, hmem, hb, i, hi, hmark⟩
  · obtain ⟨slot, hslot, hname⟩ : ∃ slot ∈ g.insts.filterMap (·.slot?), slot.name = .result m.draft.labels := by
      obtain ⟨before, after, hinsts⟩ := append_of_mem hi
      obtain ⟨type, haddress⟩ : ∃ type, i.address? = some ⟨.result m.draft.labels, type⟩ := by
        unfold Inst.mark? at hmark
        split at hmark <;> cases hmark
        exact ⟨_, rfl⟩
      have hcomes := (hassigned.insts b hmem before i after hinsts).2 _ haddress
      refine ⟨⟨.result m.draft.labels, type⟩, mem_filterMap.2 ?_, rfl⟩
      rcases hcomes with ⟨j, hj, hslot⟩ | ⟨c, hc, -, -, j, hj, hslot⟩
      · exact ⟨j, mem_flatMap.2 ⟨b, hmem, hinsts ▸ mem_append_left _ hj⟩, hslot⟩
      · exact ⟨j, mem_flatMap.2 ⟨c, hc, hj⟩, hslot⟩
    have hcount := count_eq_one_of_mem htyped.slots (mem_map.2 ⟨slot, hslot, hname⟩)
    rw [count, countP_map] at hcount
    congr! 1
  · rw [hstores, ← hlength, count_eq_length]
    exact fun writes hwrites => (harms writes hwrites).symm
  · obtain ⟨passed, b, body, others, hblocks, hb, hbody, hothers, hcount⟩ := h.arm_store harms (hlength ▸ hk)
    refine ⟨passed, b, body, others, hblocks, hb, hbody, hothers.trans ?_, hcount⟩
    simp [next, nextTest, Construct.next, drop_eq_nil_iff, hlength]

end Program.LoweredMatch

namespace Program

/-- Every match of a program without errors has the code that it should have, however deep it is nested. -/
theorem lower_shaped (source : Source) (p : Program Unit) (strict : Bool) (target : Target)
    (hparse : source.parse = .ok p) (herrors : (p.analyze strict).hasErrors = false) (m : p.LoweredMatch strict) :
    ∃ code g, (p.analyze strict).lower target = .ok code ∧ code.functions[m.index]? = some g ∧ m.ShapedIn g := by
  have ha := accepts_of_hasErrors herrors
  obtain ⟨code, hlower, -⟩ := program_lowers ha herrors target
  obtain ⟨g, arms, valued, hg, hselects, hvalued, hlength, hscrutinee, hload⟩ := m.exists_selects hparse herrors hlower
  obtain ⟨g', hg', htested, -⟩ := m.exists_tested herrors hlower
  obtain rfl : g' = g := Option.some.inj (hg'.symm.trans hg)
  refine ⟨code, g', hlower, hg, hlength ▸ hselects.labels_eq, hscrutinee, fun k hk => ?_, fun k hk l hway => ?_,
    fun passed hpath => ?_, fun hvoid hunknown => ?_⟩
  · obtain ⟨register, htest⟩ := htested k _ (getElem?_eq_getElem hk)
    exact ⟨_, mem_of_find?_eq_some htest.test, Pattern.label_testBlock .., Pattern.exists_condBr_testBlock ..⟩
  · exact hselects.arm_apart (hlength ▸ hk) hway
  · exact hlength ▸ hselects.arm_mem_path_end hpath
  · obtain ⟨before, after, hmarks⟩ := hload (by simp [Built.valued, hvoid, hunknown])
    obtain ⟨htyped, -, slots, hassigned⟩ := code_in_order ha herrors hlower (mem_of_getElem? hg)
    exact LoweredMatch.valuedIn_of_selects hselects hlength hvalued htyped hassigned hmarks

/-- A match with a value in an arm of another one, in a loop. -/
def matchInMatch : Source :=
  .ofText "fn f(x: i32) -> i32 {
  while x > 0 { return match x { 1 => match x { n => n }, k => k }; }
  return 0;
}"

theorem lower_shaped_matchInMatch :
    ∃ p, matchInMatch.parse = .ok p ∧ (p.analyze true).hasErrors = false ∧ ∃ m : p.LoweredMatch true,
      m.result = .int32 ∧ m.arms.length = 2 ∧
      ∃ code g, (p.analyze true).lower {} = .ok code ∧ code.functions[m.index]? = some g ∧ m.ShapedIn g := by
  obtain ⟨p, hparse, herrors, hvisit⟩ : ∃ p, matchInMatch.parse = .ok p ∧ (p.analyze true).hasErrors = false ∧
      (visit? (p.analyze true) 0 [0, 0, 0, 0, 1, 0, 0]).any
        (·.2.1.selects fun result _ arms => result = .int32 && arms.length = 2) :=
    exists_eq_ok_of_any (by decide +kernel)
  obtain ⟨m, hm⟩ := LoweredMatch.exists_of_visit? herrors hvisit
  simp only [Bool.and_eq_true, decide_eq_true_eq] at hm
  exact ⟨p, hparse, herrors, m, hm.1, hm.2, lower_shaped matchInMatch p true {} hparse herrors m⟩

end Program

end LocLang
