import LocLang.Proofs.Ir.Typing

namespace LocLang

open List

namespace IrFunction

def labels (f : IrFunction) : List Label :=
  f.blocks.map (·.label)

/-- Whether the control flow is in order. Only the end of a function that returns a value is never reached, and what
    follows a match of which no arm matches. -/
structure WellFormed (f : IrFunction) : Prop where
  entry_first : f.labels.head? = some .entry
  labels_nodup : f.labels.Nodup
  targets_placed : ∀ b ∈ f.blocks, ∀ l ∈ b.term.targets, l ∈ f.labels
  entry_not_target : ∀ b ∈ f.blocks, .entry ∉ b.term.targets
  unreachable : ∀ b ∈ f.blocks, b.term = .unreachable →
    (∃ n, b.label = .matchFail n) ∨ f.blocks.getLast? = some b ∧ f.result ≠ .void

/-- The ways through a function from its entry, each as the labels of its blocks, the last one first. -/
inductive Path (f : IrFunction) : List Label → Prop where
  | entry : f.Path [.entry]
  | step {b : IrBlock} {passed : List Label} {target : Label} (path : f.Path (b.label :: passed)) (mem : b ∈ f.blocks)
      (jump : target ∈ b.term.targets) : f.Path (target :: b.label :: passed)

/-- Whether every way to the block `l` goes through the block `k`. -/
def Dominates (f : IrFunction) (k l : Label) : Prop :=
  ∀ passed, f.Path (l :: passed) → k ∈ l :: passed

/-- Whether an instruction of some kind comes before the code that follows `before` in the block `b`: earlier in the
    block itself, or in another one that dominates it. -/
def Comes (f : IrFunction) (b : IrBlock) (before : List Inst) (kind : Inst → Prop) : Prop :=
  (∃ i ∈ before, kind i) ∨
    ∃ c ∈ f.blocks, c.label ≠ b.label ∧ f.Dominates c.label b.label ∧ ∃ i ∈ c.insts, kind i

end IrFunction

/-- Whether an operand has a value in the code that follows `before` in the block `b`. -/
def Operand.Available (f : IrFunction) (b : IrBlock) (before : List Inst) : Operand → Prop
  | const _ => True
  | param name type => ⟨name, type⟩ ∈ f.params
  | reg index type => f.Comes b before (·.register? = some (index, type))

def Inst.operands : Inst → List Operand
  | alloca _ | load _ _ => []
  | store value _ | cast _ _ value _ | print _ _ _ value => [value]
  | arith _ _ lhs rhs | icmp _ _ lhs rhs | fcmp _ _ lhs rhs => [lhs, rhs]
  | call _ _ _ args | callVoid _ args => args

/-- The slot that an instruction reads or writes. -/
def Inst.address? : Inst → Option Slot
  | store _ slot | load _ slot => some slot
  | _ => none

def Terminator.operands : Terminator → List Operand
  | condBr cond _ _ => [cond]
  | ret value => [value]
  | br _ | retVoid | unreachable => []

/-- Whether the code has static single assignment form: the slots are made at the start of the entry, in the given
    order, and nowhere else; and whatever code uses has its value before, on every way to it. -/
structure IrFunction.SingleAssignment (slots : List Slot) (f : IrFunction) : Prop where
  allocas : ∃ entry others code, f.blocks = entry :: others ∧ entry.label = .entry ∧
    entry.insts = slots.map .alloca ++ code ∧ (∀ i ∈ code, i.slot? = none) ∧
    ∀ b ∈ others, ∀ i ∈ b.insts, i.slot? = none
  insts : ∀ b ∈ f.blocks, ∀ before i after, b.insts = before ++ i :: after →
    (∀ v ∈ i.operands, v.Available f b before) ∧ ∀ s ∈ i.address?, f.Comes b before (·.slot? = some s)
  terms : ∀ b ∈ f.blocks, ∀ v ∈ b.term.operands, v.Available f b b.insts

/-- No instruction uses the register that it gives its value to. -/
theorem IrFunction.SingleAssignment.ne_reg {m : IrModule} {f : IrFunction} {slots : List Slot}
    (h : f.SingleAssignment slots) (htyped : f.Typed m) {b : IrBlock} (hb : b ∈ f.blocks) {i : Inst} (hi : i ∈ b.insts)
    {register : Nat} {type : MachineTy} (hregister : i.register? = some (register, type)) {v : Operand}
    (hv : v ∈ i.operands) (type' : MachineTy) : v ≠ .reg register type' := by
  rintro rfl
  obtain ⟨before, after, hsplit⟩ := append_of_mem hi
  obtain ⟨passed, rest, hblocks⟩ := append_of_mem hb
  have hnodup : ((f.insts.filterMap (·.register?)).map (·.1)).Nodup := htyped.registers
  have htwice {earlier later : List Inst} (hinsts : f.insts = earlier ++ later)
      (hearlier : ∃ i ∈ earlier, ∃ t, i.register? = some (register, t))
      (hlater : ∃ i ∈ later, ∃ t, i.register? = some (register, t)) : False := by
    rw [hinsts, filterMap_append, map_append, nodup_append] at hnodup
    have hmem {l : List Inst} (hl : ∃ i ∈ l, ∃ t, i.register? = some (register, t)) :
        register ∈ (l.filterMap (·.register?)).map (·.1) := by
      obtain ⟨j, hj, t, ht⟩ := hl
      exact mem_map.2 ⟨(register, t), mem_filterMap.2 ⟨j, hj, ht⟩, rfl⟩
    exact hnodup.2.2 register (hmem hearlier) register (hmem hlater) rfl
  have hinsts : f.insts = (passed.flatMap (·.insts) ++ before) ++ (i :: after ++ rest.flatMap (·.insts)) := by
    rw [IrFunction.insts, hblocks]
    simp [hsplit]
  obtain ⟨j, hj, hjregister⟩ | ⟨c, hc, hlabel, -, j, hj, hjregister⟩ := (h.insts b hb before i after hsplit).1 _ hv
  · exact htwice hinsts ⟨j, mem_append_right _ hj, _, hjregister⟩ ⟨i, mem_cons_self, _, hregister⟩
  · rw [hblocks, mem_append, mem_cons] at hc
    rcases hc with hc | rfl | hc
    · refine htwice hinsts ⟨j, ?_, _, hjregister⟩ ⟨i, mem_cons_self, _, hregister⟩
      exact mem_append_left _ (mem_flatMap.2 ⟨c, hc, hj⟩)
    · exact hlabel rfl
    · have hinsts' : f.insts = (passed.flatMap (·.insts) ++ before ++ [i]) ++ (after ++ rest.flatMap (·.insts)) := by
        rw [hinsts]
        simp
      refine htwice hinsts' ⟨i, by simp, _, hregister⟩ ⟨j, ?_, _, hjregister⟩
      exact mem_append_right _ (mem_flatMap.2 ⟨c, hc, hj⟩)

end LocLang
