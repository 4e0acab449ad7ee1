import LocLang.Proofs.Lowering.Course

namespace LocLang

open List

def IrBlock.marks (b : IrBlock) : List Mark :=
  .place b.label :: (b.insts.filterMap (·.mark?) ++ b.term.targets.map .jump)

namespace Draft

def marks (d : Draft) : List Mark :=
  d.closed.flatMap (·.marks) ++ d.current.toList.flatMap fun b => .place b.label :: b.insts.filterMap (·.mark?)

section

variable {d : Draft} {b : OpenBlock}

theorem marks_append (hb : d.current = some b) (i : Inst) :
    marks { d with current := some { b with insts := b.insts ++ [i] } } = d.marks ++ i.mark?.toList := by
  cases hmark : i.mark? <;> simp [marks, hb, hmark]

theorem marks_close (hb : d.current = some b) (t : Terminator) :
    marks { d with closed := d.closed ++ [b.close t], current := none } = d.marks ++ t.targets.map .jump := by
  simp [marks, hb, IrBlock.marks, OpenBlock.close]

theorem marks_place (hb : d.current = none) (label : Label) :
    marks { d with current := some { label } } = d.marks ++ [.place label] := by
  simp [marks, hb]

end

/-- Whether the blocks so far are among the given ones; the open block is the start of one. -/
structure Within (blocks : List IrBlock) (d : Draft) : Prop where
  closed : d.closed ⊆ blocks
  current : ∀ b ∈ d.current, ∃ block ∈ blocks, block.label = b.label ∧ b.insts <+: block.insts

/-- Whether a draft goes on where another one stops. The index of a new variable's slot is its place among the slots. -/
structure Grows (d d' : Draft) : Prop where
  labels : d.labels ≤ d'.labels
  registers : d.registers ≤ d'.registers
  slots : d.slots <+: d'.slots
  formats : d.formats <+: d'.formats
  marks : d.marks <+: d'.marks
  within : ∀ blocks, d'.Within blocks → d.Within blocks
  named : ∀ i slot name index, d.slots.length ≤ i → d'.slots[i]? = some slot → slot.name = .named name index → index = i

namespace Grows

variable {d d' d'' : Draft}

theorem trans (h : d.Grows d') (h' : d'.Grows d'') : d.Grows d'' where
  labels := Nat.le_trans h.labels h'.labels
  registers := Nat.le_trans h.registers h'.registers
  slots := h.slots.trans h'.slots
  formats := h.formats.trans h'.formats
  marks := h.marks.trans h'.marks
  within blocks hblocks := h.within blocks (h'.within blocks hblocks)
  named i slot name index hi hslot hname := by
    by_cases hlt : i < d'.slots.length
    · refine h.named i slot name index hi ?_ hname
      rw [← hslot, getElem?_eq_getElem hlt, IsPrefix.getElem h'.slots hlt, getElem?_eq_getElem]
    · exact h'.named i slot name index (Nat.le_of_not_lt hlt) hslot hname

/-- What changes no slots. -/
theorem of_slots_eq (hlabels : d.labels ≤ d'.labels) (hregisters : d.registers ≤ d'.registers)
    (hformats : d.formats <+: d'.formats) (hslots : d'.slots = d.slots) (hmarks : d.marks <+: d'.marks)
    (hwithin : ∀ blocks, d'.Within blocks → d.Within blocks) : d.Grows d' where
  labels := hlabels
  registers := hregisters
  slots := hslots ▸ prefix_rfl
  formats := hformats
  marks := hmarks
  within := hwithin
  named i slot name index hi hslot := by
    rw [hslots, getElem?_eq_none hi] at hslot
    cases hslot

/-- What changes neither blocks nor slots. -/
theorem of_eq (hlabels : d.labels ≤ d'.labels) (hregisters : d.registers ≤ d'.registers) (hslots : d'.slots = d.slots)
    (hformats : d.formats <+: d'.formats) (hclosed : d'.closed = d.closed) (hcurrent : d'.current = d.current) :
    d.Grows d' :=
  of_slots_eq hlabels hregisters hformats hslots (by simp [Draft.marks, hclosed, hcurrent])
    fun _ h => ⟨hclosed ▸ h.closed, hcurrent ▸ h.current⟩

theorem refl (d : Draft) : d.Grows d :=
  of_eq (Nat.le_refl _) (Nat.le_refl _) rfl prefix_rfl rfl rfl

theorem scopes (d : Draft) (scopes : Scopes Binding) : d.Grows { d with scopes } :=
  of_eq (Nat.le_refl _) (Nat.le_refl _) rfl prefix_rfl rfl rfl

theorem append {b : OpenBlock} (hb : d.current = some b) (i : Inst) :
    d.Grows { d with current := some { b with insts := b.insts ++ [i] } } := by
  refine of_slots_eq (Nat.le_refl _) (Nat.le_refl _) prefix_rfl rfl ⟨_, (marks_append hb i).symm⟩ fun blocks h => ?_
  refine ⟨h.closed, fun b' hb' => ?_⟩
  rw [hb] at hb'
  cases hb'
  obtain ⟨block, hblock, hlabel, hprefix⟩ := h.current _ rfl
  exact ⟨block, hblock, hlabel, (prefix_append _ _).trans hprefix⟩

theorem close {b : OpenBlock} (hb : d.current = some b) (t : Terminator) :
    d.Grows { d with closed := d.closed ++ [b.close t], current := none } := by
  refine of_slots_eq (Nat.le_refl _) (Nat.le_refl _) prefix_rfl rfl ⟨_, (marks_close hb t).symm⟩ fun blocks h => ?_
  refine ⟨fun block hblock => h.closed (mem_append_left _ hblock), fun b' hb' => ?_⟩
  rw [hb] at hb'
  cases hb'
  exact ⟨b.close t, h.closed (mem_append_right _ (mem_singleton.2 rfl)), rfl, prefix_rfl⟩

theorem place (hb : d.current = none) (label : Label) : d.Grows { d with current := some { label } } :=
  of_slots_eq (Nat.le_refl _) (Nat.le_refl _) prefix_rfl rfl ⟨_, (marks_place hb label).symm⟩
    fun _ h => ⟨h.closed, by simp [hb]⟩

theorem newSlot (slot : Slot) (hname : ∀ name index, slot.name = .named name index → index = d.slots.length) :
    d.Grows { d with slots := d.slots ++ [slot] } where
  labels := Nat.le_refl _
  registers := Nat.le_refl _
  slots := prefix_append _ _
  formats := prefix_rfl
  marks := prefix_rfl
  within _ h := ⟨h.closed, h.current⟩
  named i slot' name index hi hslot' hnamed := by
    rw [getElem?_append_right hi, getElem?_singleton] at hslot'
    split at hslot'
    · cases hslot'
      rw [hname name index hnamed]
      omega
    · cases hslot'

end Grows

theorem Course.grows {S : Lower.Scheme} {c : Bool} {own : List Mark} {edits : List Edit} {d d' : Draft}
    (h : Course S c own edits d d') : d.Grows d' := by
  induction h with
  | refl d => exact .refl d
  | trans _ _ ih ih' => exact ih.trans ih'
  | skip label d => exact .refl d
  | register d => exact .of_eq (Nat.le_refl _) (Nat.le_succ _) rfl prefix_rfl rfl rfl
  | formats more => exact .of_eq (Nat.le_refl _) (Nat.le_refl _) rfl more rfl rfl
  | declare d name slot => exact .scopes d _
  | append isOpen code address => exact .append isOpen _
  | «variable» d hname type => exact .newSlot _ fun _ _ h => by cases h; rfl
  | result d n type => exact .newSlot _ fun _ _ h => by cases h
  | close isOpen reached => exact .close isOpen _
  | place isClosed inner => exact .place isClosed _
  | fail isClosed n =>
    exact (Grows.place isClosed (.matchFail n)).trans (.close (b := ⟨.matchFail n, []⟩) rfl .unreachable)
  | inScope inside ih => exact (Grows.scopes _ _).trans (ih.trans (.scopes _ _))
  | @numbered _ _ d _ k inside loop ih =>
    have hlabel : d.Grows { d with labels := d.labels + 1 } :=
      .of_eq (Nat.le_succ _) (Nat.le_refl _) rfl prefix_rfl rfl rfl
    exact hlabel.trans ih

end Draft

namespace Lower

variable {α β : Type} {marks : List Mark} {x : Lower α}

structure Grows (x : Lower α) : Prop where
  draft : ∀ {d : Draft} {a : α} {d' : Draft}, x.Gives d a d' → d.Grows d'

theorem Built.grows (h : Built (.of .free) true marks x) : Grows x := by
  constructor
  intro d a d' hx
  obtain ⟨edits, -, hcourse⟩ := h.course hx fun _ _ _ => trivial
  exact hcourse.grows

namespace Grows

theorem bind {f : α → Lower β} (hx : Grows x) (hf : ∀ a, Grows (f a)) : Grows (x >>= f) := by
  constructor
  intro d b d' h
  obtain ⟨a, d1, hfirst, hrest⟩ := gives_bind.1 h
  exact (hx.draft hfirst).trans ((hf a).draft hrest)

protected theorem pure (a : α) : Grows (pure a : Lower α) :=
  (Built.pure a).grows

theorem emit (i : Inst) : Grows (emit i) := by
  constructor
  intro d b d' h
  obtain ⟨b, hb, rfl⟩ := gives_emit.1 h
  exact .append hb i

theorem emitValue (type : MachineTy) (inst : Nat → Inst) : Grows (emitValue type inst) :=
  Built.nextRegister.grows.bind fun _ => (emit _).bind fun _ => .pure _

theorem terminate (t : Terminator) : Grows (terminate t) := by
  constructor
  intro d u d' h
  obtain ⟨b, hb, rfl⟩ := gives_terminate.1 h
  exact .close hb t

theorem terminateIfOpen (t : Terminator) : Grows (terminateIfOpen t) := by
  constructor
  intro d u d' h
  rcases gives_terminateIfOpen.1 h with h | ⟨-, rfl⟩
  · exact (terminate t).draft h
  · exact .refl _

theorem place (label : Label) : Grows (place label) := by
  constructor
  intro d u d' h
  obtain ⟨hb, rfl⟩ := gives_place.1 h
  exact .place hb label

theorem popScope : Grows popScope := by
  constructor
  intro d u d' h
  obtain rfl := gives_popScope.1 h
  exact .scopes _ _

theorem convert (v : Operand) (type : MachineTy) : Grows (convert v type) :=
  (Built.convert v type).grows

theorem binary (op : BinaryOp) (lhs rhs : Operand) : Grows (binary op lhs rhs) :=
  (Built.binary op lhs rhs).grows

theorem print (v : Operand) : Grows (print v) :=
  (Built.print v).grows

theorem call (s : Signature) (args : List Operand) : Grows (call s args) :=
  (Built.call s args).grows

theorem declareVariable (name : String) (type : MachineTy) (init : Operand) : Grows (declareVariable name type init) :=
  (Built.declareVariable trivial type init).grows

theorem patternTest (enums : EnumTable) (v : Operand) (p : Pattern) : Grows (patternTest enums v p) :=
  (Built.patternTest enums v fun _ _ _ => rfl).grows

theorem loadResult (slot : Option Slot) : Grows (loadResult slot) :=
  (Built.loadAny (fun _ => trivial) slot).grows

theorem storeResult (v : Operand) (slot : Option Slot) : Grows (storeResult v slot) :=
  (Built.storeAny (fun _ => trivial) v slot).grows

end Grows

section Tree

variable (env : Env)

theorem expr_grows (e : Expr Ty) : Grows (expr env e) :=
  (expr_built env e e.obeys_free).grows

theorem arguments_grows (args : List (Expr Ty)) (name : String) (types : List MachineTy) :
    Grows (arguments env name types args) :=
  (arguments_built env args (Expr.obeyAll_free args) name types).grows

theorem armList_grows (n : Nat) (v : Operand) (slot : Option Slot) (k : Nat) (arms : List (Arm Ty)) :
    Grows (armList env n v slot k arms) :=
  (armList_built env n v false (fun _ v => .storeAny (fun _ => trivial) v slot) k arms (Arm.obeyAll_free arms)).grows

theorem armBody_grows (slot : Option Slot) (arm : Arm Ty) : Grows (armBody env slot arm) :=
  (armBody_built env 0 false (fun _ v => .storeAny (fun _ => trivial) v slot) arm arm.obeys_free).grows

theorem block_grows (b : Block Ty) : Grows (block env b) :=
  (block_built env b b.obeys_free).grows

theorem stmtList_grows (stmts : List (Stmt Ty)) : Grows (stmtList env stmts) :=
  (stmtList_built env stmts (Stmt.obeyAll_free stmts)).grows

theorem chain_grows (c : IfChain Ty) : Grows (chain env c) :=
  (chain_built env c c.obeys_free).grows

theorem statement_grows (stmt : Stmt Ty) : Grows (statement env stmt) :=
  (statement_built env stmt stmt.obeys_free fun _ => rfl).grows

theorem initializer_grows (type : MachineTy) (init : Option (Expr Ty)) : Grows (initializer env type init) :=
  (initializer_built env type init (Expr.obeyIfAny_free init)).grows

end Tree

end Lower

end LocLang
