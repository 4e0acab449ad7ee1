import LocLang.Lowering.Body
import LocLang.Proofs.Scopes

namespace LocLang

namespace Lower

variable {α β : Type} {name : String} {n : Nat} {x : Lower α} {arms : List (Arm Ty)} {f : α → Lower β} {env : Env}
  {a : α}

/-- Whether work on the draft `d` succeeds with the value `a` and the draft `d'`. -/
def Gives (x : Lower α) (d : Draft) (a : α) (d' : Draft) : Prop :=
  x.run d = .ok (a, d')

theorem Gives.unique {d d1 d2 : Draft} {b : α} (ha : x.Gives d a d1) (hb : x.Gives d b d2) : a = b ∧ d1 = d2 := by
  rw [Gives] at ha hb
  rw [ha] at hb
  cases hb
  exact ⟨rfl, rfl⟩

theorem gives_bind {d d'' : Draft} {b : β} :
    (x >>= f).Gives d b d'' ↔ ∃ a d', x.Gives d a d' ∧ (f a).Gives d' b d'' := by
  simp only [Gives, StateT.run_bind]
  cases hrun : x.run d with
  | error =>
    constructor
    · intro h
      cases h
    · rintro ⟨a, d', hx, -⟩
      cases hx
  | ok result =>
    constructor
    · intro h
      exact ⟨result.1, result.2, rfl, h⟩
    · rintro ⟨a, d', hx, hf⟩
      cases hx
      exact hf

theorem Gives.bind {d d' d'' : Draft} {b : β} (hx : x.Gives d a d') (hf : (f a).Gives d' b d'') :
    (x >>= f).Gives d b d'' :=
  gives_bind.2 ⟨a, d', hx, hf⟩

theorem gives_of_run_eq {d d1 d' : Draft} {b : α} (h : x.run d = .ok (a, d1)) : x.Gives d b d' ↔ b = a ∧ d' = d1 := by
  rw [Gives, h]
  constructor
  · intro heq
    cases heq
    exact ⟨rfl, rfl⟩
  · rintro ⟨rfl, rfl⟩
    rfl

section Steps

variable {d d' : Draft} {u : Unit}

@[simp]
theorem gives_pure {b : α} : (pure a : Lower α).Gives d b d' ↔ b = a ∧ d' = d :=
  gives_of_run_eq rfl

theorem gives_get_bind {f : Draft → Lower α} : (get >>= f).Gives d a d' ↔ (f d).Gives d a d' := .rfl

theorem gives_set {e : Draft} : (set e : Lower Unit).Gives d u d' ↔ d' = e :=
  (gives_of_run_eq rfl).trans (by simp)

theorem gives_map {f : α → β} {b : β} : (x >>= fun a => pure (f a)).Gives d b d' ↔ ∃ a, x.Gives d a d' ∧ b = f a := by
  simp only [gives_bind, gives_pure]
  grind

@[simp]
theorem gives_fault {f : Fault} : ¬(fault f : Lower α).Gives d a d' := by
  intro h
  cases h

@[simp]
theorem gives_nextLabel : nextLabel.Gives d n d' ↔ n = d.labels ∧ d' = { d with labels := d.labels + 1 } :=
  gives_of_run_eq rfl

@[simp]
theorem gives_nextRegister : nextRegister.Gives d n d' ↔ n = d.registers ∧
    d' = { d with registers := d.registers + 1 } :=
  gives_of_run_eq rfl

@[simp]
theorem gives_newSlot {name : Nat → SlotName} {type : MachineTy} {slot : Slot} : (newSlot name type).Gives d slot d' ↔
      slot = ⟨name d.slots.length, type⟩ ∧ d' = { d with slots := d.slots ++ [⟨name d.slots.length, type⟩] } :=
  gives_of_run_eq rfl

@[simp]
theorem gives_pushScope : pushScope.Gives d u d' ↔ d' = { d with scopes := d.scopes.push } :=
  (gives_of_run_eq rfl).trans (by simp)

@[simp]
theorem gives_popScope : popScope.Gives d u d' ↔ d' = { d with scopes := d.scopes.pop } :=
  (gives_of_run_eq rfl).trans (by simp)

@[simp]
theorem gives_declare {b : Binding} : (declare name b).Gives d u d' ↔
    d' = { d with scopes := d.scopes.declare name b } :=
  (gives_of_run_eq rfl).trans (by simp)

@[simp]
theorem gives_isOpen {b : Bool} : isOpen.Gives d b d' ↔ b = d.current.isSome ∧ d' = d :=
  gives_of_run_eq rfl

/-- A format has its number, or it is a new one and gets the next. -/
theorem gives_formatIndex_iff {f : PrintFormat} : (formatIndex f).Gives d n d' ↔ d.formats.idxOf? f = some n ∧ d' = d ∨
      d.formats.idxOf? f = none ∧ n = d.formats.length ∧ d' = { d with formats := d.formats ++ [f] } := by
  rw [gives_of_run_eq (x := formatIndex f) rfl]
  cases d.formats.idxOf? f <;> simp [eq_comm]

/-- The number of a format is where it stands among the formats of the module. -/
theorem gives_formatIndex {f : PrintFormat} (h : (formatIndex f).Gives d n d') :
    ∃ formats, d' = { d with formats } ∧ d.formats <+: formats ∧ formats[n]? = some f := by
  rcases gives_formatIndex_iff.1 h with ⟨hidx, rfl⟩ | ⟨-, rfl, rfl⟩
  · obtain ⟨hlt, hget, -⟩ := List.idxOf?_eq_some_iff.1 hidx
    exact ⟨d'.formats, rfl, List.prefix_rfl, List.getElem?_eq_some_iff.2 ⟨hlt, by simpa using hget⟩⟩
  · exact ⟨_, rfl, List.prefix_append _ _, by simp⟩

theorem exists_gives_formatIndex (f : PrintFormat) (d : Draft) : ∃ n d', (formatIndex f).Gives d n d' :=
  ⟨_, _, rfl⟩

@[simp]
theorem gives_emit {i : Inst} : (emit i).Gives d u d' ↔
      ∃ b, d.current = some b ∧ d' = { d with current := some { b with insts := b.insts ++ [i] } } := by
  rw [emit, gives_get_bind]
  cases d.current <;> simp [gives_set]

@[simp]
theorem gives_emitValue {type : MachineTy} {inst : Nat → Inst} {v : Operand} : (emitValue type inst).Gives d v d' ↔
      ∃ b, d.current = some b ∧ v = .reg d.registers type ∧
        d' = { d with
          registers := d.registers + 1
          current := some { b with insts := b.insts ++ [inst d.registers] } } := by
  simp only [emitValue, gives_bind, gives_nextRegister, gives_emit, gives_pure]
  constructor
  · rintro ⟨n, d1, ⟨rfl, rfl⟩, _, d2, ⟨b, hb, rfl⟩, rfl, rfl⟩
    exact ⟨b, hb, rfl, rfl⟩
  · rintro ⟨b, hb, rfl, rfl⟩
    exact ⟨_, _, ⟨rfl, rfl⟩, (), _, ⟨b, hb, rfl⟩, rfl, rfl⟩

@[simp]
theorem gives_terminate {t : Terminator} : (terminate t).Gives d u d' ↔
      ∃ b, d.current = some b ∧ d' = { d with closed := d.closed ++ [b.close t], current := none } := by
  rw [terminate, gives_get_bind]
  cases d.current <;> simp [gives_set]

/-- Closing a block if it is open is closing it, or nothing. -/
theorem gives_terminateIfOpen {t : Terminator} : (terminateIfOpen t).Gives d u d' ↔
      (terminate t).Gives d u d' ∨ d.current = none ∧ d' = d := by
  rw [terminateIfOpen, gives_get_bind]
  cases hcurrent : d.current <;> simp [hcurrent]

@[simp]
theorem gives_place {label : Label} :
    (place label).Gives d u d' ↔ d.current = none ∧ d' = { d with current := some { label } } := by
  rw [place, gives_get_bind]
  cases d.current <;> simp [gives_set]

@[simp]
theorem gives_lookup {b : Binding} : (lookup name).Gives d b d' ↔ d.scopes.Finds name b ∧ d' = d := by
  rw [lookup, gives_get_bind, Scopes.Finds]
  cases d.scopes.resolve? name <;> simp [eq_comm]

@[simp]
theorem gives_callee {s : Signature} : (callee name).Gives d s d' ↔ d.scopes.Finds name (.function s) ∧ d' = d := by
  simp only [callee, gives_bind, gives_lookup]
  constructor
  · rintro ⟨b, d1, ⟨hfinds, rfl⟩, h⟩
    cases b with
    | function =>
      obtain ⟨rfl, rfl⟩ := gives_pure.1 h
      exact ⟨hfinds, rfl⟩
    | slot slot | value v => exact absurd h gives_fault
  · rintro ⟨hfinds, rfl⟩
    exact ⟨_, _, ⟨hfinds, rfl⟩, gives_pure.2 ⟨rfl, rfl⟩⟩

end Steps

/-- A call by name, whatever the name is. -/
theorem expr_call_ident {span calleeSpan : Span} {args : List (Expr Ty)} :
    expr env (.call span (.ident calleeSpan name) args) =
      if name = printName then
        match args with
        | [] => fault .nothingToPrint
        | arg :: _ => do
          let v ← expr env arg
          print v
          return .nothing
      else (do
        let s ← callee name
        let args ← arguments env name s.params args
        call s args) := by
  cases args <;> rw [expr.eq_def]

/-- The slot for the value of the match with the given number and type. -/
def slotFor (n : Nat) (type : Ty) : Option Slot :=
  if type = .void ∨ type = .unknown then none else some ⟨.result n, type.machine⟩

theorem gives_resultSlot {type : Ty} {d d' : Draft} {slot : Option Slot} (h : (resultSlot n type).Gives d slot d') :
    slot = slotFor n type ∧ d' = { d with slots := d.slots ++ (slotFor n type).toList } := by
  cases type with
  | void | unknown =>
    obtain ⟨rfl, rfl⟩ := gives_pure.1 h
    exact ⟨rfl, by simp [slotFor]⟩
  | int32 | int64 | float32 | float64 | bool =>
    cases h
    exact ⟨rfl, rfl⟩

theorem gives_selection {type note : Ty} {span : Span} {scrutinee : Expr Ty}
    {d d' : Draft} {result : Operand}
    (h : (selection env type (.mk span note scrutinee arms)).Gives d result d') : ∃ v slot d1 d2 d3 d4 d5 d6 d7,
      (expr env scrutinee).Gives { d with labels := d.labels + 1 } v d1 ∧
      (resultSlot d.labels type).Gives d1 slot d2 ∧
      (terminate (.br (nextTest d.labels 0 arms))).Gives d2 () d3 ∧
      (armList env d.labels v slot 0 arms).Gives d3 () d4 ∧
      (place (.matchFail d.labels)).Gives d4 () d5 ∧
      (terminate .unreachable).Gives d5 () d6 ∧
      (place (.matchEnd d.labels)).Gives d6 () d7 ∧
      (loadResult slot).Gives d7 result d' := by
  simp only [selection, gives_bind, gives_nextLabel] at h
  obtain ⟨_, _, ⟨rfl, rfl⟩, v, d1, hscrutinee, slot, d2, hslot, _, d3, hbr, _, d4, harms, _, d5, hfail, _, d6,
    hunreachable, _, d7, hend, hload⟩ := h
  exact ⟨v, slot, d1, d2, d3, d4, d5, d6, d7, hscrutinee, hslot, hbr, harms, hfail, hunreachable, hend, hload⟩

theorem gives_armList_cons {k : Nat} {v : Operand} {slot : Option Slot} {arm : Arm Ty}
    {d d' : Draft} {u : Unit} (h : (armList env n v slot k (arm :: arms)).Gives d u d') : ∃ cond d1 d2 d3 d4 d5 d6,
      (place (.matchTest n k)).Gives { d with scopes := d.scopes.push } () d1 ∧
      (patternTest env.enums v arm.pattern).Gives d1 cond d2 ∧
      (terminate (.condBr cond (.matchArm n k) (nextTest n (k + 1) arms))).Gives d2 () d3 ∧
      (place (.matchArm n k)).Gives d3 () d4 ∧
      (armBody env slot arm).Gives d4 () d5 ∧
      (terminateIfOpen (.br (.matchEnd n))).Gives d5 () d6 ∧
      (armList env n v slot (k + 1) arms).Gives { d6 with scopes := d6.scopes.pop } () d' := by
  simp only [armList, gives_bind, gives_pushScope, gives_popScope] at h
  obtain ⟨_, _, rfl, _, d1, htest, cond, d2, hpattern, _, d3, hbr, _, d4, harm, _, d5, hbody, _, d6, hleave, _, _, rfl,
    hrest⟩ := h
  exact ⟨cond, d1, d2, d3, d4, d5, d6, htest, hpattern, hbr, harm, hbody, hleave, hrest⟩

/-- The runtime has what printing needs. -/
theorem runtimeFunction_printf {α : Type} (f : Declaration → Lower α) : (runtimeFunction "printf" >>= f) =
    f { name := "printf", result := "i32", params := ["i8*"], variadic := true } := rfl

end Lower

/-- Slots that are put in one by one stand in their order, before the instructions that are no slots. -/
theorem EntryInsts.insts_allocateAll (slots : List Slot) (front back : List Inst) :
    (slots.foldl allocate ⟨front ++ back, front.length⟩).insts = front ++ slots.map .alloca ++ back := by
  induction slots generalizing front with
  | nil => simp
  | cons slot _ ih =>
    have hstep : allocate ⟨front ++ back, front.length⟩ slot =
        ⟨(front ++ [.alloca slot]) ++ back, (front ++ [Inst.alloca slot]).length⟩ := by simp [allocate]
    rw [List.foldl_cons, hstep, ih]
    simp

namespace Draft

variable {d : Draft}

theorem finished_of_nil (h : d.closed = []) : d.finished = [] := by
  rw [finished, h]

theorem finished_of_cons {first : IrBlock} {others : List IrBlock} (h : d.closed = first :: others) :
    d.finished = { first with insts := d.slots.map .alloca ++ first.insts } :: others := by
  have hinsts := EntryInsts.insts_allocateAll d.slots [] first.insts
  rw [List.nil_append, List.nil_append, List.length_nil] at hinsts
  rw [finished, h]
  simp only [hinsts]

end Draft

end LocLang
