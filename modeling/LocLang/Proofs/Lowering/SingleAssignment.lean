import LocLang.Proofs.Lowering.Supply

namespace LocLang

open List

variable {i : Inst} {Γ : Typing}

/-- The operands of a typed instruction are typed. -/
theorem Inst.Typed.operands (h : i.Typed Γ) : ∀ v ∈ i.operands, v.Typed Γ := by
  intro v hv
  cases i with
  | alloca | load => cases hv
  | store =>
    rw [mem_singleton.1 hv]
    exact h.2.1
  | cast dst op value type | print dst index format value =>
    rw [mem_singleton.1 hv]
    exact h.1
  | arith dst op lhs rhs | icmp dst pred lhs rhs | fcmp dst pred lhs rhs =>
    simp only [Inst.operands, mem_cons, not_mem_nil, or_false] at hv
    rcases hv with rfl | rfl
    · exact h.1
    · exact h.2.1
  | call => exact h.2.1 v hv
  | callVoid => exact h.1 v hv

theorem Inst.Typed.address? (h : i.Typed Γ) : ∀ s ∈ i.address?, s ∈ Γ.slots := by
  intro s hs
  cases i with
  | store =>
    cases hs
    exact h.1
  | load =>
    cases hs
    exact h
  | _ => cases hs

theorem Terminator.Typed.operands {t : Terminator} (h : t.Typed Γ) : ∀ v ∈ t.operands, v.Typed Γ := by
  intro v hv
  cases t with
  | condBr cond ifTrue ifFalse | ret value =>
    rw [mem_singleton.1 hv]
    exact h.1
  | br | retVoid | unreachable => cases hv

/-- In typed code, the instruction that gives a register its value gives one of the type that the register is used
    with. -/
theorem IrFunction.Typed.register?_eq {m : IrModule} {f : IrFunction} (h : f.Typed m) {index : Nat} {type : MachineTy}
    (hv : (Operand.reg index type).Typed (f.typing m)) (hi : i ∈ f.insts) (hresult : i.result? = some index) :
    i.register? = some (index, type) := by
  obtain ⟨⟨index', type'⟩, hregister, rfl⟩ := Option.map_eq_some_iff.1 hresult
  have hmem : (index', type') ∈ (f.typing m).registers := mem_filterMap.2 ⟨i, hi, hregister⟩
  have hfind := find?_of_nodup_key (·.1) h.registers hmem
  rw [find?_of_nodup_key (·.1) h.registers hv.1] at hfind
  cases hfind
  exact hregister

namespace IrFunction

variable {f : IrFunction}

/-- Every way starts at the entry. -/
theorem Path.entry_mem {path : List Label} (h : f.Path path) : .entry ∈ path := by
  induction h with
  | entry => exact mem_cons_self
  | step _ _ _ ih => exact mem_cons_of_mem _ ih

theorem entry_dominates (f : IrFunction) (l : Label) : f.Dominates .entry l :=
  fun _ path => path.entry_mem

/-- Only one block of typed code gives a register its value. -/
theorem Typed.eq_of_register {m : IrModule} (h : f.Typed m) {b c : IrBlock} (hb : b ∈ f.blocks) (hc : c ∈ f.blocks)
    {index : Nat} (hbset : .register index ∈ Inst.setBy b.insts) (hcset : .register index ∈ Inst.setBy c.insts) :
    b = c := by
  have hnodup := h.registers
  rw [typing, IrFunction.insts, filterMap_flatMap, map_flatMap, nodup_flatMap] at hnodup
  have hmem {b : IrBlock} (hset : .register index ∈ Inst.setBy b.insts) :
      index ∈ (b.insts.filterMap (·.register?)).map (·.1) := by
    obtain ⟨i, hi, hsets⟩ := mem_flatMap.1 hset
    obtain ⟨r, hr, rfl⟩ := Option.map_eq_some_iff.1 (Inst.register_mem_sets.1 hsets)
    exact mem_map_of_mem (mem_filterMap.2 ⟨i, hi, hr⟩)
  obtain ⟨earlier, later, hblocks⟩ := append_of_mem hb
  rw [hblocks, pairwise_append, pairwise_cons] at hnodup
  rw [hblocks, mem_append, mem_cons] at hc
  rcases hc with hc | rfl | hc
  · exact absurd (hmem hbset) (hnodup.2.2.2 c hc b mem_cons_self (hmem hcset))
  · rfl
  · exact absurd (hmem hcset) (hnodup.2.2.1.1 c hc (hmem hbset))

end IrFunction

namespace Draft

variable {slots : Bool} {homes : Homes} {d : Draft} {name : String} {result : MachineTy} {params : List IrParam}
  {m : IrModule} {v : Operand}

theorem exists_finished_of_mem_closed {c : IrBlock} (hc : c ∈ d.closed) :
    ∃ b ∈ d.finished, b.label = c.label ∧ c.insts ⊆ b.insts := by
  cases hclosed : d.closed with
  | nil =>
    rw [hclosed] at hc
    cases hc
  | cons =>
    rw [hclosed] at hc
    rw [finished_of_cons hclosed]
    rcases mem_cons.1 hc with rfl | hc
    · exact ⟨_, mem_cons_self, rfl, subset_append_right _ _⟩
    · exact ⟨c, mem_cons_of_mem _ hc, rfl, fun _ hi => hi⟩

section Finished

variable (h : d.Sound slots homes) (hnodup : (d.closed.map (·.label)).Nodup)
  (htyped : IrFunction.Typed m ⟨name, result, params, d.finished⟩) {b : IrBlock}
include h hnodup htyped

/-- What is known to have a value has one in the finished function. -/
theorem Sound.available (hb : b ∈ d.finished) {before : List Inst} (hbefore : before ⊆ b.insts)
    (hv : v.items ⊆ b.label.known homes ++ Inst.setBy before)
    (hvtyped : v.Typed (IrFunction.typing m ⟨name, result, params, d.finished⟩)) :
    v.Available ⟨name, result, params, d.finished⟩ b before := by
  cases v with
  | const => trivial
  | param => exact hvtyped.1
  | reg index type =>
    have hregister {c : IrBlock} (hc : c ∈ d.finished) {i : Inst} (hi : i ∈ c.insts)
        (hsets : .register index ∈ i.sets) : i.register? = some (index, type) :=
      htyped.register?_eq hvtyped (mem_flatMap.2 ⟨c, hc, hi⟩) (Inst.register_mem_sets.1 hsets)
    rcases mem_append.1 (hv mem_cons_self) with hknown | hset
    · -- An earlier block gives the register its value, and no other one does.
      obtain ⟨earlier, c, later, _, hclosed, rfl⟩ := exists_split_of_mem_finished hb
      obtain ⟨e, he, heset⟩ := (h.closed earlier c later hclosed).1.earlier index hknown
      have hne : e.label ≠ c.label := by
        rw [hclosed, map_append, nodup_append] at hnodup
        exact hnodup.2.2 _ (mem_map_of_mem he) _ mem_cons_self
      obtain ⟨e', he', helabel, hinsts⟩ :=
        exists_finished_of_mem_closed (d := d) (hclosed ▸ mem_append_left (c :: later) he)
      obtain ⟨i, hi, hsets⟩ := mem_flatMap.1 heset
      have heset' : .register index ∈ Inst.setBy e'.insts := mem_flatMap.2 ⟨i, hinsts hi, hsets⟩
      refine .inr ⟨e', he', by rwa [helabel], fun passed hpath => ?_, i, hinsts hi, hregister he' (hinsts hi) hsets⟩
      obtain ⟨g, hg, hgpassed, hgset⟩ := h.exists_passed hpath hknown
      rw [htyped.eq_of_register he' hg heset' hgset]
      exact mem_cons_of_mem _ hgpassed
    · obtain ⟨i, hi, hsets⟩ := mem_flatMap.1 hset
      exact .inl ⟨i, hi, hregister hb (hbefore hi) hsets⟩

theorem Sound.operands_available (hb : b ∈ d.finished) {before after : List Inst}
    (hinsts : b.insts = before ++ i :: after) : ∀ v ∈ i.operands,
    v.Available ⟨name, result, params, d.finished⟩ b before := by
  intro v hv
  have hi : i ∈ b.insts := hinsts ▸ mem_append_right _ mem_cons_self
  refine h.available hnodup htyped hb (hinsts ▸ subset_append_left _ _) ?_
    ((htyped.insts i (mem_flatMap.2 ⟨b, hb, hi⟩)).operands v hv)
  exact Subset.trans (Inst.items_subset_needs hv slots) (h.needs_subset hb hinsts)

theorem Sound.term_available (hb : b ∈ d.finished) :
    ∀ v ∈ b.term.operands, v.Available ⟨name, result, params, d.finished⟩ b b.insts := by
  intro v hv
  refine h.available hnodup htyped hb (Subset.refl _) (fun x hx => ?_) ((htyped.terms b hb).operands v hv)
  obtain ⟨earlier, c, later, _, hclosed, rfl⟩ := exists_split_of_mem_finished hb
  rw [Inst.setBy_allocas]
  exact (h.closed earlier c later hclosed).2 (mem_flatMap.2 ⟨v, hv, hx⟩)

end Finished

/-- Slots are kept apart from code. -/
theorem Course.slot?_eq_none {S : Lower.Scheme} {c : Bool} {own : List Mark} {edits : List Edit} {d' : Draft}
    (h : d.Course S c own edits d') (hd : ∀ i ∈ d.insts, i.slot? = none) : ∀ i ∈ d'.insts, i.slot? = none := by
  induction h with
  | trans _ _ ih ih' => exact ih' (ih hd)
  | append isOpen code =>
    rw [insts_emit isOpen]
    exact forall_mem_append.2 ⟨hd, forall_mem_singleton.2 code⟩
  | close isOpen =>
    rw [insts_terminate isOpen]
    exact hd
  | place isClosed =>
    rw [insts_place isClosed]
    exact hd
  | fail isClosed => simpa [insts, isClosed] using hd
  | inScope _ ih => exact ih hd
  | numbered _ _ _ ih => exact ih hd
  | _ => exact hd

/-- Every slot that code reads or writes is one of the function. -/
theorem mem_slots (hcode : ∀ c ∈ d.closed, ∀ i ∈ c.insts, i.slot? = none)
    (htyped : IrFunction.Typed m ⟨name, result, params, d.finished⟩) (hi : i ∈ d.finished.flatMap (·.insts)) {s : Slot}
    (hs : s ∈ i.address?) : s ∈ d.slots := by
  obtain ⟨j, hj, hslot⟩ := mem_filterMap.1 ((htyped.insts i hi).address? s hs)
  obtain ⟨b, hb, hj⟩ := mem_flatMap.1 hj
  cases hclosed : d.closed with
  | nil => simp [finished_of_nil hclosed] at hb
  | cons first others =>
    have hother {c : IrBlock} (hc : c ∈ first :: others) (hj : j ∈ c.insts) : s ∈ d.slots := by
      rw [hcode c (hclosed ▸ hc) j hj] at hslot
      cases hslot
    rw [finished_of_cons hclosed] at hb
    rcases mem_cons.1 hb with rfl | hb
    · rcases mem_append.1 hj with hj | hj
      · obtain ⟨slot, hmem, rfl⟩ := mem_map.1 hj
        cases hslot
        exact hmem
      · exact hother mem_cons_self hj
    · exact hother (mem_cons_of_mem _ hb) hj

/-- A finished draft whose values are there before they are used has static single assignment form. -/
theorem Sound.singleAssignment (h : d.Sound slots homes) (hcode : ∀ i ∈ d.insts, i.slot? = none)
    (hcurrent : d.current = none) (hnodup : d.blockLabels.Nodup) (hfirst : d.blockLabels.head? = some .entry)
    (htyped : IrFunction.Typed m ⟨name, result, params, d.finished⟩) : IrFunction.SingleAssignment d.slots ⟨name,
    result, params, d.finished⟩ := by
  have hlabels : d.blockLabels = d.closed.map (·.label) := by simp [blockLabels, hcurrent]
  have hblocks (c : IrBlock) (hc : c ∈ d.closed) (i : Inst) (hi : i ∈ c.insts) : i.slot? = none :=
    hcode i (mem_append_left _ (mem_flatMap.2 ⟨c, hc, hi⟩))
  rw [hlabels] at hnodup hfirst
  cases hclosed : d.closed with
  | nil =>
    rw [hclosed] at hfirst
    cases hfirst
  | cons first others =>
    have hentry : first.label = .entry := by
      rw [hclosed] at hfirst
      exact Option.some.inj hfirst
    have hfinished := finished_of_cons hclosed
    refine ⟨⟨_, others, first.insts, hfinished, hentry, rfl, hblocks first (hclosed ▸ mem_cons_self),
      fun c hc => hblocks c (hclosed ▸ mem_cons_of_mem _ hc)⟩, fun b hb before i after hinsts => ⟨?_, fun s hs => ?_⟩,
      fun b hb => h.term_available hnodup htyped hb⟩
    · exact h.operands_available hnodup htyped hb hinsts
    · have hi : i ∈ b.insts := hinsts ▸ mem_append_right _ mem_cons_self
      have hmade : Inst.alloca s ∈ d.slots.map Inst.alloca :=
        mem_map_of_mem (mem_slots hblocks htyped (mem_flatMap.2 ⟨b, hb, hi⟩) hs)
      rcases mem_cons.1 (hfinished ▸ hb) with rfl | hb
      · rcases eq_append_of_append_eq hinsts with ⟨slot, rfl⟩ | ⟨before', rfl, -⟩
        · cases hs
        · exact .inl ⟨.alloca s, mem_append_left _ hmade, rfl⟩
      · -- The entry dominates every other block.
        refine .inr ⟨_, hfinished ▸ mem_cons_self, ?_, ?_, .alloca s, mem_append_left _ hmade, rfl⟩
        · rw [hclosed, map_cons, nodup_cons] at hnodup
          exact fun heq => hnodup.1 (heq ▸ mem_map_of_mem hb)
        · rw [hentry]
          exact IrFunction.entry_dominates _ _

end Draft

namespace Lower

variable {enums : EnumTable} {f : FuncDef Ty} {d d' : Draft} {g : IrFunction}

/-- Every function has static single assignment form, with its slots in the order in which they are made. -/
theorem function_singleAssignment (hmodule : IsModule d.scopes) (h : (function enums f).Gives d g d') :
    ∃ edits, (function enums f).Writes d edits g d' ∧
      ∀ m, g.Typed m → g.SingleAssignment (edits.filterMap (·.allocated?)) := by
  obtain ⟨edits, s, d1, d2, hwrites, hwritten, hblock, hclose, rfl⟩ := function_edits h
  refine ⟨edits, hwrites, fun m htyped => ?_⟩
  obtain ⟨hnodup, hfirst⟩ := labels_of_body hblock hclose
  obtain ⟨homes, hsound⟩ := body_sound (nofun : false = true → _) f.body.obeys_free hmodule hblock hclose
  obtain ⟨_, -, hcourse⟩ := block_course hblock
  have hcode : ∀ i ∈ d2.insts, i.slot? = none := by
    have hbody := hcourse.slot?_eq_none (by simp [start, Draft.insts])
    rcases gives_terminateIfOpen.1 hclose with hclose | ⟨-, rfl⟩
    · obtain ⟨b, hb, rfl⟩ := gives_terminate.1 hclose
      rwa [Draft.insts_terminate hb]
    · exact hbody
  rw [← hwritten.slots]
  exact hsound.singleAssignment hcode (current_of_terminateIfOpen hclose) hnodup hfirst htyped

end Lower

/-- The code of every program without errors has static single assignment form. The slots of each function stand at
    the start of its entry in the order in which lowering makes them. -/
theorem Program.lower_singleAssignment (p : Program Unit) (strict : Bool) (target : Target)
    (h : (p.analyze strict).hasErrors = false) :
    ∃ m, (p.analyze strict).lower target = .ok m ∧
      ∃ (parts : List (List Edit × IrFunction)) (d : Draft), parts.map (·.2) = m.functions ∧
        (Lower.program (p.analyze strict)).Writes { scopes := .empty } (parts.flatMap (·.1)) m.functions d ∧
        ∀ part ∈ parts, part.2.SingleAssignment (part.1.filterMap (·.allocated?)) := by
  obtain ⟨m, hlower, htyped, -⟩ := Lower.program_lowers (accepts_of_hasErrors h) h target
  obtain ⟨d, hprogram⟩ := Lower.gives_program_of_lower hlower
  obtain ⟨parts, hparts, hmap, hall⟩ := Lower.program_written Lower.function_singleAssignment hprogram
  refine ⟨m, hlower, parts, d, hmap, hparts, fun part hpart => hall part hpart m (htyped.functions part.2 ?_)⟩
  exact hmap ▸ mem_map_of_mem hpart

theorem Program.lower_singleAssignment_countdown : (countdown.analyze false).hasErrors = false ∧
      ∃ m, (countdown.analyze false).lower {} = .ok m ∧ ∀ f ∈ m.functions, ∃ slots, f.SingleAssignment slots := by
  obtain ⟨m, hlower, parts, d, hmap, -, hall⟩ := lower_singleAssignment countdown false {} rfl
  refine ⟨rfl, m, hlower, fun f hf => ?_⟩
  obtain ⟨part, hpart, rfl⟩ := mem_map.1 (hmap ▸ hf)
  exact ⟨_, hall part hpart⟩

end LocLang
