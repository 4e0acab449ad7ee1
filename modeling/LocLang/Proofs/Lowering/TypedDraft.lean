import LocLang.Proofs.Ir.Typing
import LocLang.Proofs.Lowering.Steps

namespace LocLang

open List

/-- What stays the same while a function is lowered: its parameters, the type that it returns, and the enums and
    functions that it can refer to. No parameter of any of them is without a value. -/
structure Lower.Head where
  params : List IrParam
  result : Ty
  enums : EnumTable
  functions : List Signature
  params_ne_void : ∀ s ∈ functions, ∀ type ∈ s.params, type ≠ .void

/-- Where the body of the function is lowered. -/
def Lower.Head.env (head : Lower.Head) : Lower.Env :=
  ⟨head.enums, head.result.machine⟩

namespace Draft

def insts (d : Draft) : List Inst :=
  d.closed.flatMap (·.insts) ++ d.current.elim [] (·.insts)

/-- What code can refer to so far. -/
def typing (head : Lower.Head) (d : Draft) : Typing where
  params := head.params
  registers := d.insts.filterMap (·.register?)
  slots := d.slots
  formats := d.formats
  functions := head.functions
  result := head.result.machine

/-- Whether the code so far is in order. Registers that are not in use yet have no value, and slots are kept apart
    from code. -/
structure Typed (head : Lower.Head) (d : Draft) : Prop where
  insts : ∀ i ∈ d.insts, i.Typed (d.typing head)
  terms : ∀ b ∈ d.closed, b.term.Typed (d.typing head)
  registers : ((d.typing head).registers.map (·.1)).Nodup
  registers_lt : ∀ r ∈ (d.typing head).registers, r.1 < d.registers
  slots : ∀ s ∈ d.slots, s.type ≠ .void
  slot? : ∀ i ∈ d.insts, i.slot? = none

/-- Whether typed code was added to a draft. -/
structure Leads (head : Lower.Head) (d d' : Draft) : Prop where
  typed : d'.Typed head
  le : (d.typing head).Le (d'.typing head)

/-- Whether typed code was added to a draft and the scopes are the same as before. -/
structure Keeps (head : Lower.Head) (d d' : Draft) : Prop extends Leads head d d' where
  scopes : d'.scopes = d.scopes

variable {head : Lower.Head} {d d' d'' : Draft}

theorem Typed.leads (h : d.Typed head) : d.Leads head d :=
  ⟨h, .refl _⟩

theorem Leads.trans (h : d.Leads head d') (h' : d'.Leads head d'') : d.Leads head d'' :=
  ⟨h'.typed, h.le.trans h'.le⟩

theorem Keeps.trans (h : d.Keeps head d') (h' : d'.Keeps head d'') : d.Keeps head d'' :=
  ⟨h.toLeads.trans h'.toLeads, h'.scopes.trans h.scopes⟩

theorem Typed.keeps (h : d.Typed head) : d.Keeps head d :=
  ⟨h.leads, rfl⟩

section Steps

variable {b : OpenBlock} {i : Inst} {t : Terminator} {type : MachineTy}

theorem insts_emit (hb : d.current = some b) :
    ({ d with current := some { b with insts := b.insts ++ [i] } } : Draft).insts = d.insts ++ [i] := by
  simp [insts, hb]

theorem insts_terminate (hb : d.current = some b) :
    ({ d with closed := d.closed ++ [b.close t], current := none } : Draft).insts = d.insts := by
  simp [insts, hb, OpenBlock.close]

theorem insts_place (hb : d.current = none) (label : Label) :
    ({ d with current := some { label } } : Draft).insts = d.insts := by
  simp [insts, hb]

/-- More can be referred to. -/
theorem Typed.leads_of_le (h : d.Typed head) (hle : (d.typing head).Le (d'.typing head)) (hinsts : d'.insts = d.insts)
    (hclosed : d'.closed = d.closed) (hregisters : d'.registers = d.registers)
    (hslots : ∀ s ∈ d'.slots, s.type ≠ .void) : d.Leads head d' := by
  have htyping : (d'.typing head).registers = (d.typing head).registers := by
    simp only [typing, hinsts]
  refine ⟨⟨?_, ?_, htyping ▸ h.registers, ?_, hslots, hinsts ▸ h.slot?⟩, hle⟩
  · rw [hinsts]
    exact fun i hi => (h.insts i hi).mono hle
  · rw [hclosed]
    exact fun b hb => (h.terms b hb).mono hle
  · rw [htyping, hregisters]
    exact h.registers_lt

/-- Code is added that gives no value. -/
theorem Typed.leads_of_typing_eq (h : d.Typed head) (htyping : d'.typing head = d.typing head)
    (hregisters : d'.registers = d.registers) (hinsts : ∀ i ∈ d'.insts, i.Typed (d.typing head))
    (hterms : ∀ b ∈ d'.closed, b.term.Typed (d.typing head)) (hslot : ∀ i ∈ d'.insts, i.slot? = none) :
    d.Leads head d' := by
  have hslots : d'.slots = d.slots := congrArg Typing.slots htyping
  refine ⟨⟨?_, ?_, ?_, ?_, hslots ▸ h.slots, hslot⟩, ?_⟩ <;> rw [htyping]
  · exact hinsts
  · exact hterms
  · exact h.registers
  · rw [hregisters]
    exact h.registers_lt

/-- What is not code or part of its context can change. -/
theorem Typed.leads_of_eq (h : d.Typed head) (hinsts : d'.insts = d.insts) (hclosed : d'.closed = d.closed)
    (hregisters : d'.registers = d.registers) (hslots : d'.slots = d.slots) (hformats : d'.formats = d.formats) :
    d.Leads head d' :=
  h.leads_of_typing_eq (by simp only [typing, hinsts, hslots, hformats]) hregisters (hinsts ▸ h.insts)
    (hclosed ▸ h.terms) (hinsts ▸ h.slot?)

/-- An instruction without a value. -/
theorem Typed.leads_emit (h : d.Typed head) (hb : d.current = some b) (hi : i.Typed (d.typing head))
    (hregister : i.register? = none) (hslot : i.slot? = none) :
    d.Leads head { d with current := some { b with insts := b.insts ++ [i] } } := by
  refine h.leads_of_typing_eq ?_ rfl ?_ h.terms ?_
  · simp only [typing, insts_emit hb, filterMap_append, filterMap_cons, hregister, filterMap_nil, append_nil]
  · rw [insts_emit hb]
    exact forall_mem_append.2 ⟨h.insts, forall_mem_singleton.2 hi⟩
  · rw [insts_emit hb]
    exact forall_mem_append.2 ⟨h.slot?, forall_mem_singleton.2 hslot⟩

/-- An instruction with a value, which is in the next register. -/
theorem Typed.leads_emitValue (h : d.Typed head) (hb : d.current = some b) (hi : i.Typed (d.typing head))
    (hregister : i.register? = some (d.registers, type)) (hslot : i.slot? = none) (hvoid : type ≠ .void) :
    d.Leads head { d with
        registers := d.registers + 1
        current := some { b with insts := b.insts ++ [i] } } ∧
      (Operand.reg d.registers type).Typed (({ d with
        registers := d.registers + 1
        current := some { b with insts := b.insts ++ [i] } } : Draft).typing head) := by
  let d' : Draft :=
    { d with registers := d.registers + 1, current := some { b with insts := b.insts ++ [i] } }
  have hinsts : d'.insts = d.insts ++ [i] := insts_emit hb
  have hregisters : (d'.typing head).registers = (d.typing head).registers ++ [(d.registers, type)] := by
    simp only [typing, hinsts, filterMap_append, filterMap_cons, hregister, filterMap_nil]
  have hle : (d.typing head).Le (d'.typing head) :=
    ⟨rfl, fun r hr => hregisters ▸ mem_append_left _ hr, fun _ hs => hs, prefix_rfl, rfl, rfl⟩
  refine ⟨⟨⟨?_, fun b hb => (h.terms b hb).mono hle, ?_, ?_, h.slots, ?_⟩, hle⟩, ?_, hvoid⟩
  · rw [hinsts]
    exact forall_mem_append.2 ⟨fun j hj => (h.insts j hj).mono hle, forall_mem_singleton.2 (hi.mono hle)⟩
  · rw [hregisters, map_append, nodup_append]
    refine ⟨h.registers, by simp, fun index hindex other hother => ?_⟩
    obtain ⟨r, hr, rfl⟩ := mem_map.1 hindex
    have hlt := h.registers_lt r hr
    rw [mem_singleton.1 hother]
    exact Nat.ne_of_lt hlt
  · rw [hregisters]
    exact forall_mem_append.2 ⟨fun r hr => Nat.lt_succ_of_lt (h.registers_lt r hr),
      forall_mem_singleton.2 (Nat.lt_succ_self _)⟩
  · rw [hinsts]
    exact forall_mem_append.2 ⟨h.slot?, forall_mem_singleton.2 hslot⟩
  · rw [hregisters]
    exact mem_append_right _ (mem_singleton.2 rfl)

theorem Typed.leads_terminate (h : d.Typed head) (hb : d.current = some b) (ht : t.Typed (d.typing head)) :
    d.Leads head { d with closed := d.closed ++ [b.close t], current := none } := by
  have hinsts := insts_terminate (t := t) hb
  refine h.leads_of_typing_eq (by simp only [typing, hinsts]) rfl (hinsts ▸ h.insts) ?_ (hinsts ▸ h.slot?)
  exact forall_mem_append.2 ⟨h.terms, forall_mem_singleton.2 ht⟩

theorem Typed.leads_place (h : d.Typed head) (hb : d.current = none) (label : Label) :
    d.Leads head { d with current := some { label } } :=
  h.leads_of_eq (insts_place hb label) rfl rfl rfl rfl

theorem Typed.leads_newSlot (h : d.Typed head) (slot : Slot) (hvoid : slot.type ≠ .void) :
    d.Leads head { d with slots := d.slots ++ [slot] } := by
  refine h.leads_of_le ⟨rfl, fun _ hr => hr, subset_append_left _ _, prefix_rfl, rfl, rfl⟩ rfl rfl rfl ?_
  exact forall_mem_append.2 ⟨h.slots, forall_mem_singleton.2 hvoid⟩

theorem Typed.leads_formats (h : d.Typed head) {formats : List PrintFormat} (hformats : d.formats <+: formats) :
    d.Leads head { d with formats } :=
  h.leads_of_le ⟨rfl, fun _ hr => hr, fun _ hs => hs, hformats, rfl, rfl⟩ rfl rfl rfl h.slots

end Steps

end Draft

end LocLang
