import LocLang.Proofs.Semantics.Agreement
import LocLang.Proofs.Semantics.Fragment

namespace LocLang

open Lower Machine

/-- The machine at another place in the function. -/
def Machine.goto (m : Machine) (insts : List Inst) (term : Terminator) : Machine :=
  { m with top := { m.top with insts, term } }

theorem Machine.follows_goto (m : Machine) (n : Nat) (insts : List Inst) (term : Terminator) :
    m.Follows n (m.goto insts term) :=
  ⟨rfl, rfl, rfl, fun _ _ => rfl⟩

/-- The machine with other instructions left in the block. -/
def Machine.skip (m : Machine) (rest : List Inst) : Machine :=
  m.goto rest m.top.term

namespace Machine

variable {platform : Platform} {m : Machine}

theorem step_of_insts {i : Inst} {rest : List Inst} (h : m.top.insts = i :: rest) :
    m.step platform = (m.skip rest).execute platform i := by
  rw [step, h]
  rfl

theorem step_of_term (h : m.top.insts = []) : m.step platform = m.finish platform m.top.term := by
  rw [step, h]

/-- Whether the slot for the value of a match holds it. -/
def Stores (m : Machine) (y : Value) : Option Slot → Prop
  | none => y = .nothing
  | some slot => y.type.machine = slot.type ∧ m.top.memory slot.name = some (some y.word)

end Machine

theorem Activation.Holds.skip {m : Machine} {n : Nat} {x : Value} {v : Operand} (h : m.top.Holds n x v)
    (rest : List Inst) : (m.skip rest).top.Holds n x v := by
  cases v <;> exact h

namespace Site

variable {platform : Platform} {site : Site} {d d' : Draft} {locals : Locals} {w : World} {m m' : Machine}
  {x y : Value} {v v' : Operand} {n : Nat} {u : Unit} {K : Held} {d1 : Draft} {inst : Nat → Inst}

theorem Yields.refl (h : site.State locals w d m) (hK : K.holds m d.registers) : site.Yields locals w d d m m K :=
  ⟨h, .refl _ _, hK⟩

theorem Yields.after {m1 : Machine} (h : site.Yields locals w d1 d' m1 m' K) (hfollows : m.Follows d.registers m1)
    (hle : d.registers ≤ d1.registers) : site.Yields locals w d d' m m' K :=
  ⟨h.state, hfollows.trans h.follows hle, h.holds⟩

/-- Whether the machine does what a run from the tree does while it runs what is drafted: if it holds `K` before, it
    holds `L` after. -/
structure Evaluates {α β : Type} (site : Site) (platform : Platform) (fuel : Nat) (locals : Locals) (K : Held)
    (x : Lower α) (e : Eval β) (L : α → β → Held) : Prop where
  grows : Grows x
  performs : ∀ {w : World} {d d' : Draft} {m : Machine} {a : α}, x.Gives d a d' → site.Covers d' →
    site.State locals w d m → K.holds m d.registers →
      m.Performs platform fuel e w fun b w' m' => site.Yields locals w' d d' m m' (L a b)

instance : Nonempty Value :=
  ⟨.nothing⟩

namespace Evaluates

variable {α β γ δ : Type} {fuel : Nat} {K : Held} {L : α → β → Held} {M : γ → δ → Held} {f : α → Lower γ}

theorem start {x : Lower α} {e : Eval β} {a : α} (hx : site.Evaluates platform fuel locals .none x e L)
    (hgives : x.Gives d a d') (hcovers : site.Covers d') (h : site.State locals w d m) :
    m.Performs platform fuel e w fun b w' m' => site.Yields locals w' d d' m m' (L a b) :=
  hx.performs hgives hcovers h trivial

protected theorem pure {a : α} {b : β} (h : ∀ {m : Machine} {n : Nat}, K.holds m n → (L a b).holds m n) :
    site.Evaluates platform fuel locals K (pure a) (pure b) L where
  grows := .pure _
  performs hgives _ hstate hK := by
    obtain ⟨rfl, rfl⟩ := gives_pure.1 hgives
    exact .pure (.refl hstate (h hK))

protected theorem bind [Nonempty β] {x : Lower α} {e : Eval β} {g : β → Eval δ}
    (hx : site.Evaluates platform fuel locals K x e L)
    (hf : ∀ a b, site.Evaluates platform fuel locals (K.and (L a b)) (f a) (g b) M) :
    site.Evaluates platform fuel locals K (x >>= f) (e >>= g) M := by
  have hgrows (a : α) : Grows (f a) := (hf a Classical.ofNonempty).grows
  refine ⟨hx.grows.bind hgrows, fun hgives hcovers h hK => ?_⟩
  obtain ⟨a, d1, hfirst, hrest⟩ := gives_bind.1 hgives
  have hle := (hx.grows.draft hfirst).registers
  refine (hx.performs hfirst (hcovers.of_grows ((hgrows a).draft hrest)) h hK).bind fun b w1 m1 h1 => ?_
  exact ((hf a b).performs hrest hcovers h1.state ⟨K.follow hK h1.follows hle, h1.holds⟩).mono fun _ _ _ h2 =>
    h2.after h1.follows hle

/-- Code for what the run from the tree has at once. -/
theorem prepare {x : Lower α} {b : β} {e : Eval δ}
    (hx : site.Evaluates platform fuel locals K x (pure b) L)
    (hf : ∀ a, site.Evaluates platform fuel locals (K.and (L a b)) (f a) e M) :
    site.Evaluates platform fuel locals K (x >>= f) e M := by
  refine ⟨hx.grows.bind fun a => (hf a).grows, fun hgives hcovers h hK => ?_⟩
  obtain ⟨a, d1, hfirst, hrest⟩ := gives_bind.1 hgives
  have hle := (hx.grows.draft hfirst).registers
  refine .of_reaches (hx.performs hfirst (hcovers.of_grows ((hf a).grows.draft hrest)) h hK) fun m1 h1 => ?_
  exact ((hf a).performs hrest hcovers h1.state ⟨K.follow hK h1.follows hle, h1.holds⟩).mono fun _ _ _ h2 =>
    h2.after h1.follows hle

end Evaluates

theorem State.next {type : MachineTy} (h : site.State locals w d m)
    (hgives : (emitValue type inst).Gives d v d') (hcovers : site.Covers d') :
      ∃ rest, m.top.insts = inst d.registers :: rest ∧
      ∀ top' : Activation, top'.insts = rest → top'.term = m.top.term → site.At d' top' := by
  obtain ⟨b, hb, rfl, rfl⟩ := gives_emitValue.1 hgives
  have hemit : (emit (inst d.registers)).Gives { d with registers := d.registers + 1 } () _ :=
    gives_emit.2 ⟨b, hb, rfl⟩
  have hhere : site.At { d with registers := d.registers + 1 } m.top := h.here
  exact hhere.emit hemit hcovers

theorem State.emitValue {type : MachineTy} (h : site.State locals w d m) (hgives : (emitValue type inst).Gives d v d')
    (hcovers : site.Covers d') (htype : type = x.type.machine)
    (hexecute : ∀ rest, (m.skip rest).execute platform (inst d.registers) = .ok
    ((m.skip rest).set d.registers x.word)) : m.Reaches platform fun m' =>
    site.Yields locals w d d' m m' (.value x v) := by
  obtain ⟨rest, hinsts, hat⟩ := h.next hgives hcovers
  obtain ⟨b, hb, rfl, rfl⟩ := gives_emitValue.1 hgives
  have hstep : m.step platform = .ok ((m.skip rest).set d.registers x.word) := by
    rw [step_of_insts hinsts, hexecute]
  have hfollows : m.Follows d.registers ((m.skip rest).set d.registers x.word) :=
    ⟨rfl, rfl, rfl, fun i hi => if_neg (Nat.ne_of_lt hi)⟩
  refine .of_step hstep (.refl ⟨⟨hat _ rfl rfl, ?_⟩, hfollows, htype, Nat.lt_succ_self _, if_pos rfl⟩)
  exact h.agrees.follow hfollows (fun _ hslot => hslot) (fun _ _ _ => rfl) h.agrees.output rfl rfl (Nat.le_succ _)
    (Nat.le_refl _)

theorem State.convert {t : Ty} (h : site.State locals w d m) (hv : m.top.Holds d.registers x v) (ht : t.isInteger)
    (hgives : (convert v t.machine).Gives d v' d') (hcovers : site.Covers d') :
    m.Reaches platform fun m' => site.Yields locals w d d' m m' (.value (x.convert t) v') := by
  rw [convert.eq_def] at hgives
  split at hgives
  · rename_i hsame
    obtain ⟨rfl, rfl⟩ := gives_pure.1 hgives
    have hmachine : x.type.machine = t.machine := by
      rcases hsame with hsame | hvoid
      · rw [← hv.type_eq, hsame]
      · exact absurd hvoid (Ty.machine_ne_void_of_isInteger ht)
    rw [Value.convert_eq_self hmachine]
    exact .refl (.refl h hv)
  · rename_i hne
    have htype := hv.type_eq
    have hmachine : x.type.machine ≠ t.machine := fun heq => hne (.inl (htype.trans heq))
    have hexecute (rest : List Inst) :
        (m.skip rest).execute platform ((Conversion.between v.type t.machine).inst v t.machine d.registers) =
          .ok ((m.skip rest).set d.registers (x.convert t).word) :=
      execute_conversion ht htype ((hv.skip rest).read_eq platform) hmachine d.registers
    cases v with
    | const c =>
      obtain ⟨rfl, rfl⟩ := gives_pure.1 hgives
      obtain rfl : c = x.constant := hv
      exact .refl (.refl h (Constant.fold_constant ht x))
    | param name type | reg i type => exact h.emitValue hgives hcovers (Value.machine_ofInt ht).symm hexecute

section Operators

variable {K : Held} {t : Ty}

theorem Evaluates.convert (ht : t.isInteger) (hv : K.Has x v) :
    site.Evaluates platform n locals K (convert v t.machine) (pure (x.convert t)) fun v' y => .typed y t v' where
  grows := .convert _ _
  performs hgives hcovers h hK := (h.convert (hv.holds hK) ht hgives hcovers).mono fun _ h' =>
    ⟨h'.state, h'.follows, Value.machine_ofInt ht, h'.holds⟩

variable {lhs rhs : Operand}

/-- An operator on operands of its type. -/
theorem Evaluates.operate (op : BinaryOp) (hlhs : K.Has x lhs) (hrhs : K.Has y rhs) (hx : x.type = t) (hy : y.type = t)
    (hbool : t = .bool → op.isComparison) :
    site.Evaluates platform n locals K (Lower.operate op t.machine lhs rhs) (Eval.define (op.compute? t x y))
      fun v z => .value z v := by
  refine ⟨.emitValue _ _, fun {w d d' m v} hgives hcovers h hK => ?_⟩
  have hfloating : t.machine.isFloating = false := by
    rw [← hx]
    cases x <;> rfl
  have hexecute (rest : List Inst) :
      (m.skip rest).execute platform (op.inst false lhs rhs d.registers) =
        (op.compute? t x y).elim (.error .undefined) fun z => .ok ((m.skip rest).set d.registers z.word) :=
    execute_operator hx hy hbool (((hlhs.holds hK).skip rest).read_eq platform)
      (((hrhs.holds hK).skip rest).read_eq platform) d.registers
  rw [Lower.operate, hfloating] at hgives
  cases hcompute : op.compute? t x y with
  | some =>
    simp only [hcompute, Option.elim_some] at hexecute
    have htype := BinaryOp.resultType_eq (hx ▸ x.isInteger_type) hcompute
    exact .of_reaches (h.emitValue hgives hcovers htype hexecute) fun m' hm' => .pure hm'
  | none =>
    simp only [hcompute, Option.elim_none] at hexecute
    obtain ⟨rest, hinsts, -⟩ := h.next hgives hcovers
    exact .undefined ((step_of_insts hinsts).trans (hexecute rest)) h.agrees.output

theorem Evaluates.binary (op : BinaryOp) (hlhs : K.Has x lhs) (hrhs : K.Has y rhs) :
    site.Evaluates platform n locals K (Lower.binary op lhs rhs) (Eval.binary op x y) fun v z => .value z v := by
  refine ⟨.binary _ _ _, fun hgives hcovers h hK => ?_⟩
  rw [Lower.binary, (hlhs.holds hK).type_eq, (hrhs.holds hK).type_eq, BinaryOp.operandType_eq] at hgives
  have ht := op.isInteger_workType x y
  have hcode : site.Evaluates platform n locals K _ _ _ := (Evaluates.convert ht hlhs).prepare fun _ =>
    (Evaluates.convert ht (hrhs.and _)).prepare fun _ =>
      .operate op (Held.has_typed.and _) Held.has_typed (op.type_convert_workType x y x)
        (op.type_convert_workType x y y) BinaryOp.isComparison_of_workType
  exact hcode.performs hgives hcovers h hK

end Operators

theorem Evaluates.load (name : String) :
    site.Evaluates platform n locals K (load name) (Eval.read locals name) fun v x => .value x v := by
  refine ⟨(Built.read name).grows, fun {w d d' m v} hgives hcovers h _ => ?_⟩
  obtain ⟨b, d1, hlookup, hgives⟩ := gives_bind.1 hgives
  obtain ⟨hfinds, rfl⟩ := gives_lookup.1 hlookup
  rcases h.agrees.lookup hfinds with ⟨l, hl, hagrees, -⟩ | ⟨-, entry, hentry, -, rfl⟩
  · rw [Eval.read, hl]
    cases l with
    | value =>
      cases b with
      | value =>
        obtain ⟨rfl, rfl⟩ := gives_pure.1 hgives
        exact .pure (.refl h hagrees)
      | slot | function => cases hagrees
    | cell index =>
      cases b with
      | slot slot =>
        obtain ⟨-, htype, -, x, hx, hxtype, hmemory⟩ := hagrees
        have hexecute (rest : List Inst) : (m.skip rest).execute platform (.load d1.registers slot) =
            .ok ((m.skip rest).set d1.registers x.word) := by
          simp [execute, Activation.load, skip, goto, hmemory, bind, Except.bind, pure, Except.pure]
        refine .of_reaches (h.emitValue hgives hcovers hxtype.symm hexecute) fun m' hm' => ?_
        have hread : (Eval.readCell index).run w = .ok x w := by
          show (Eval.require w.cells[index]?).run w = _
          rw [hx]
          rfl
        exact .of_run_eq hread hm'
      | value | function => cases hagrees
  · obtain ⟨s, hs⟩ := site.functions_only entry hentry
    rw [hs] at hgives
    exact absurd hgives gives_fault

/-- A draft that goes on without code. -/
theorem State.of_eq (h : site.State locals w d m) (hcurrent : d'.current = d.current) (hscopes : d'.scopes = d.scopes)
    (hregisters : d'.registers = d.registers) (hslots : d.slots <+: d'.slots) : site.State locals w d' m := by
  obtain ⟨b, block, hb, hblock⟩ := h.here
  exact ⟨⟨b, block, hcurrent.trans hb, hblock⟩, h.agrees.follow (.refl _ _) (fun _ hslot => hslot) (fun _ _ _ => rfl)
    h.agrees.output rfl hscopes (Nat.le_of_eq hregisters.symm) hslots.length_le⟩

/-- A value put into a slot that exists. -/
theorem State.store (platform : Platform) {slot : Slot} (h : site.State locals w d m) (hv : m.top.Holds d.registers x v)
    (hmemory : m.top.memory slot.name ≠ none) (hgives : (emit (.store v slot)).Gives d u d')
      (hcovers : site.Covers d') :
    ∃ top : Activation, m.step platform = .ok { m with top } ∧ site.At d' top ∧
      m.Follows d.registers { m with top } ∧ d'.scopes = d.scopes ∧ d'.registers = d.registers ∧ d'.slots = d.slots ∧
      ∀ s, top.memory s = if s = slot.name then some (some x.word) else m.top.memory s := by
  obtain ⟨rest, hinsts, hat⟩ := h.here.emit hgives hcovers
  obtain ⟨b, hb, rfl⟩ := gives_emit.1 hgives
  obtain ⟨old, hold⟩ := Option.ne_none_iff_exists'.1 hmemory
  have hread := (hv.skip rest).read_eq platform
  let memory (s : SlotName) := if s = slot.name then some (some x.word) else m.top.memory s
  refine ⟨{ m.top with insts := rest, memory }, ?_, hat _ rfl rfl, ⟨rfl, rfl, rfl, fun _ _ => rfl⟩, rfl, rfl, rfl,
    fun _ => rfl⟩
  have hstore : (m.skip rest).top.store slot.name x.word = .ok { m.top with insts := rest, memory } := by
    simp only [Activation.store, skip, goto, hold]
    rfl
  rw [step_of_insts hinsts]
  simp only [execute, hread, hstore, bind, Except.bind]
  rfl

theorem State.assign {slot : Slot} {index : Nat} {old : Value} (h : site.State locals w d m)
    (hv : m.top.Holds d.registers x v) (hlink : (index, slot.name) ∈ locals.links d.scopes.inner.flatten)
    (hold : w.cells[index]? = some old) (hmemory : m.top.memory slot.name = some (some old.word))
    (htype : x.type.machine = old.type.machine) (hgives : (emit (.store v slot)).Gives d u d')
    (hcovers : site.Covers d') : m.Reaches platform fun m' =>
    site.Yields locals { w with cells := w.cells.set index x } d d' m m' (.value x v) := by
  obtain ⟨top, hstep, hat, hfollows, hscopes, hregisters, hslots, hchanged⟩ :=
    h.store platform hv (by rw [hmemory]; exact Option.some_ne_none _) hgives hcovers
  have hle : d.registers ≤ d'.registers := Nat.le_of_eq hregisters.symm
  refine .of_step hstep (.refl ⟨⟨hat, ?_⟩, hfollows, hv.follow hfollows hle⟩)
  exact
    { code := h.agrees.code ▸ hfollows.code
      allocated := by
        intro s hs
        rw [hchanged]
        split
        · exact Option.some_ne_none _
        · exact h.agrees.allocated s hs
      output := h.agrees.output
      isOpen := hscopes ▸ h.agrees.isOpen
      base := hscopes ▸ h.agrees.base
      names := by
        rw [hscopes]
        refine h.agrees.names.change (fun y o ho => ho.follow hfollows hle) (Nat.le_of_eq (by rw [hslots])) ?_
        intro p hp y hy hy'
        have hiff := h.agrees.paired p hp _ hlink
        rw [hchanged]
        by_cases hindex : p.1 = index
        · rw [hindex, hold] at hy
          cases hy
          refine ⟨x, ?_, htype, if_pos (hiff.1 hindex)⟩
          rw [hindex, List.getElem?_set_self (List.getElem?_eq_some_iff.1 hold).1]
        · refine ⟨y, ?_, rfl, ?_⟩
          · rw [List.getElem?_set_ne (Ne.symm hindex), hy]
          · rw [if_neg fun heq => hindex (hiff.2 heq), hy']
      paired := hscopes ▸ h.agrees.paired }

theorem State.declareVariable {name : String} {t : Ty} (h : site.State locals w d m) (hv : m.top.Holds d.registers x v)
    (ht : t.isInteger) (htype : x.type.machine = t.machine) (hgives : (declareVariable name t.machine v).Gives d u d')
    (hcovers : site.Covers d') : m.Reaches platform fun m' => m.Follows d.registers m' ∧
      site.State ((name, .cell w.cells.length t) :: locals) { w with cells := w.cells ++ [x] } d' m' := by
  obtain ⟨slot, d1, hslot, hgives⟩ := gives_bind.1 hgives
  obtain ⟨rfl, rfl⟩ := gives_newSlot.1 hslot
  obtain ⟨u, d2, hemit, hdeclare⟩ := gives_bind.1 hgives
  obtain rfl := gives_declare.1 hdeclare
  have hcovers2 : site.Covers d2 := ⟨⟨hcovers.within.closed, hcovers.within.current⟩, hcovers.slots⟩
  have h1 : site.State locals w { d with slots := d.slots ++ [⟨.named name d.slots.length, t.machine⟩] } m :=
    h.of_eq rfl rfl rfl (List.prefix_append _ _)
  have hslots2 := (Grows.emit _).draft hemit |>.slots
  have hmemory := h.agrees.allocated ⟨.named name d.slots.length, t.machine⟩
    ((hslots2.trans hcovers2.slots).subset (by simp))
  obtain ⟨top, hstep, hat, hfollows, hscopes, hregisters, hslots, hchanged⟩ :=
      h1.store platform hv hmemory hemit hcovers2
  have hopen : d2.scopes.inner ≠ [] := hscopes ▸ h.agrees.isOpen
  have hsame := Scopes.sameOutside_declare hopen name (.slot ⟨.named name d.slots.length, t.machine⟩)
  have hlength : d2.slots.length = d.slots.length + 1 := by rw [hslots, List.length_append, List.length_singleton]
  refine .of_step hstep (.refl ⟨hfollows, ⟨hat, ?_⟩⟩)
  exact
    { code := h.agrees.code ▸ hfollows.code
      allocated := by
        intro s hs
        rw [hchanged]
        split
        · exact Option.some_ne_none _
        · exact h.agrees.allocated s hs
      output := h.agrees.output
      isOpen := hsame.open_right
      base := hsame.base_eq.trans (hscopes ▸ h.agrees.base)
      names := by
        rw [Scopes.flatten_declare hopen, hscopes, hlength]
        exact h.agrees.names.declareCell ht htype rfl
          (fun y o ho => ho.follow hfollows (Nat.le_of_eq hregisters.symm)) hchanged _
      paired := by
        rw [Scopes.flatten_declare hopen, hscopes]
        exact h.agrees.names.paired_declareCell h.agrees.paired _ }

theorem Agrees.goto (h : site.Agrees locals w d m) (insts : List Inst) (term : Terminator) :
    site.Agrees locals w d (m.goto insts term) :=
  h.follow (m.follows_goto _ insts term) (fun _ hslot => hslot) (fun _ _ _ => rfl) h.output rfl rfl (Nat.le_refl _)
    (Nat.le_refl _)

theorem State.br (platform : Platform) {label : Label} (h : site.State locals w d m)
    (hgives : (terminate (.br label)).Gives d u d1) (hcovers : site.Covers d1) (hlabel : site.Has label) :
    ∃ insts term, m.step platform = .ok (m.goto insts term) ∧ site.Enters label (m.goto insts term).top := by
  obtain ⟨hinsts, hterm⟩ := h.here.terminate hgives hcovers
  obtain ⟨insts, term, hjump, henters⟩ := site.jump hlabel h.agrees.code
  refine ⟨insts, term, ?_, henters⟩
  rw [step_of_term hinsts, hterm]
  simp only [finish, hjump, bind, Except.bind]
  rfl

theorem State.condBr (platform : Platform) {label1 label2 : Label} {b : Bool} (h : site.State locals w d m)
    (hv : m.top.Holds d.registers (.bool b) v) (hgives : (terminate (.condBr v label1 label2)).Gives d u d1)
    (hcovers : site.Covers d1) (hlabel1 : site.Has label1) (hlabel2 : site.Has label2) :
    ∃ insts term, m.step platform = .ok (m.goto insts term) ∧
      site.Enters (if b then label1 else label2) (m.goto insts term).top := by
  obtain ⟨hinsts, hterm⟩ := h.here.terminate hgives hcovers
  have hjump : ∃ insts term, m.top.jump (if b then label1 else label2) = .ok { m.top with insts, term } ∧
      site.Enters (if b then label1 else label2) { m.top with insts, term } := by
    cases b with
    | true => exact site.jump hlabel1 h.agrees.code
    | false => exact site.jump hlabel2 h.agrees.code
  obtain ⟨insts, term, hjump, henters⟩ := hjump
  have hbit : ((Value.bool b).word.bits.toNat = 1) = (b = true) := by cases b <;> simp [Value.word]
  refine ⟨insts, term, ?_, henters⟩
  rw [step_of_term hinsts, hterm]
  simp only [finish, hv.read_eq platform, bind, Except.bind, hbit, hjump]
  rfl

/-- A test whether a value is equal to another one, which takes its type. -/
theorem Evaluates.equalTest {wanted : Operand} (hv : K.Has x v) (hwanted : K.Has y wanted) :
    site.Evaluates platform n locals K (Lower.equalTest v wanted) (pure (.bool (x = y.convert x.type)))
      fun cond z => .value z cond := by
  refine ⟨(Built.equalTest v wanted).grows, fun hgives hcovers h hK => ?_⟩
  rw [Lower.equalTest, (hv.holds hK).type_eq] at hgives
  have hcode : site.Evaluates platform n locals K _ _ _ := (Evaluates.convert x.isInteger_type hwanted).prepare fun _ =>
    .operate .eq (hv.and _) Held.has_typed rfl (Value.type_convert_type x y) fun _ => rfl
  exact hcode.performs hgives hcovers h hK

theorem State.patternTest (platform : Platform) {enums : EnumTable} {p : Pattern} {cond : Operand}
    (h : site.State locals w d m) (hv : m.top.Holds d.registers x v) (hp : p.Discrete enums)
    (hgives : (patternTest enums v p).Gives d cond d') (hcovers : site.Covers d') :
    ∃ b, (Eval.selects enums x p).run w = .ok b w ∧ m.Reaches platform fun m' =>
      site.Yields (Eval.bindings x locals p) w d d' m m' (.value (.bool b) cond) := by
  cases p with
  | wildcard =>
    obtain ⟨rfl, rfl⟩ := gives_pure.1 hgives
    exact ⟨true, rfl, .refl (.refl h rfl)⟩
  | bind _ name =>
    obtain ⟨_, d1, hdeclare, hgives⟩ := gives_bind.1 hgives
    obtain rfl := gives_declare.1 hdeclare
    obtain ⟨rfl, rfl⟩ := gives_pure.1 hgives
    exact ⟨true, rfl, .refl ⟨⟨h.here, h.agrees.declareValue name hv⟩, .refl _ _, rfl⟩⟩
  | literal _ literal =>
    obtain ⟨hrange, hsome⟩ := hp
    obtain ⟨y, hy⟩ := Option.isSome_iff_exists.1 hsome
    refine ⟨decide (x = y.convert x.type), ?_, ?_⟩
    · rw [Eval.selects, hy]
      rfl
    · exact (Evaluates.equalTest (n := 0) Held.has_value (Held.has_const (Constant.ofLiteral_eq hrange hy))).performs
        hgives hcovers h hv
  | variant =>
    obtain ⟨k, hk, hlt⟩ := hp
    obtain ⟨wanted, d1, hdiscriminant, htest⟩ := gives_bind.1 hgives
    rw [discriminant, hk] at hdiscriminant
    obtain ⟨rfl, rfl⟩ := gives_pure.1 hdiscriminant
    refine ⟨decide (x = (Value.ofDiscriminant k).convert x.type), ?_, ?_⟩
    · rw [Eval.selects, Eval.variant, hk]
      rfl
    · exact (Evaluates.equalTest (n := 0) Held.has_value (Held.has_const (Constant.int_discriminant hlt))).performs
        htest hcovers h hv

/-- A value is printed as a number in a type that has it. -/
theorem print_eq (platform : Platform) (htype : v.type = x.type.machine) :
    ∃ (format : PrintFormat) (t : Ty), t.isInteger ∧ format.line platform (x.convert t).word.bits = x.text ∧
    print v = (do
      let v ← convert v t.machine
      let _ ← runtimeFunction "printf"
      let index ← formatIndex format
      let _ ← emitValue .i32 fun dst => .print dst index format v) := by
  rw [print, htype]
  cases x with
  | bool b => exact ⟨.int32, .int32, rfl, by cases b <;> rfl, rfl⟩
  | int32 k =>
    have hself : (Value.int32 k).convert .int32 = .int32 k := Value.convert_eq_self rfl
    exact ⟨.int32, .int32, rfl, by rw [hself]; rfl, rfl⟩
  | int64 k =>
    have hself : (Value.int64 k).convert .int64 = .int64 k := Value.convert_eq_self rfl
    exact ⟨.int64, .int64, rfl, by rw [hself]; rfl, rfl⟩

theorem Evaluates.print (hv : K.Has x v) : site.Evaluates platform n locals K (print v)
    (Eval.printLine x) fun _ _ => .none := by
  refine ⟨.print _, fun hgives hcovers h hK => ?_⟩
  obtain ⟨format, t, ht, hline, hprint⟩ := print_eq platform (hv.holds hK).type_eq
  rw [hprint] at hgives
  obtain ⟨v', d1, hconvert, hgives⟩ := gives_bind.1 hgives
  rw [runtimeFunction_printf] at hgives
  obtain ⟨index, d2, hformat, hgives⟩ := gives_bind.1 hgives
  obtain ⟨v'', hemit, -⟩ := gives_map.1 hgives
  obtain ⟨formats, rfl, -⟩ := gives_formatIndex hformat
  have honward1 := (Grows.convert _ _).draft hconvert
  have hcovers2 := hcovers.of_grows ((Grows.emitValue _ _).draft hemit)
  have hcovers1 : site.Covers d1 := ⟨⟨hcovers2.within.closed, hcovers2.within.current⟩, hcovers2.slots⟩
  refine .of_reaches (h.convert (hv.holds hK) ht hconvert hcovers1) fun m1 h1 => ?_
  have h2 : site.State locals _ { d1 with formats } m1 := h1.state.of_eq rfl rfl rfl List.prefix_rfl
  obtain ⟨rest, hinsts, hat⟩ := h2.next hemit hcovers
  obtain ⟨b, hb, -, rfl⟩ := gives_emitValue.1 hemit
  have hread := (Activation.Holds.skip h1.holds rest).read_eq platform
  have hstep : m1.step platform =
      .ok { (m1.skip rest).set d1.registers ⟨32, .ofNat _ (x.text.length + 1)⟩ with
        output := m1.output ++ [x.text] } := by
    rw [step_of_insts hinsts]
    simp only [execute, hread, hline, bind, Except.bind]
    rfl
  have hfollows : m1.Follows d1.registers
      { (m1.skip rest).set d1.registers ⟨32, .ofNat _ (x.text.length + 1)⟩ with
        output := m1.output ++ [x.text] } :=
    ⟨rfl, rfl, rfl, fun i hi => if_neg (Nat.ne_of_lt hi)⟩
  have houtput := congrArg (· ++ [x.text]) h1.state.agrees.output
  refine Reaches.of_step hstep (.refl ⟨⟨hat _ rfl rfl, ?_⟩, h1.follows.trans hfollows honward1.registers, trivial⟩)
  exact h1.state.agrees.follow hfollows (fun _ hslot => hslot) (fun _ _ _ => rfl) houtput rfl rfl (Nat.le_succ _)
    (Nat.le_refl _)

/-- The value of an arm becomes the value of the match. -/
theorem State.storeResult {k : Nat} {type : Ty} (h : site.State locals w d m) (hv : m.top.Holds d.registers x v)
    (htype : type.isInteger ∨ type = .void) (hslots : (slotFor k type).toList ⊆ site.draft.slots)
    (hgives : (storeResult v (slotFor k type)).Gives d u d') (hcovers : site.Covers d') :
    m.Reaches platform fun m' => m.Follows d.registers m' ∧ site.State locals w d' m' ∧
      m'.Stores (Eval.matchValue type x) (slotFor k type) := by
  by_cases hnone : type = .void ∨ type = .unknown
  · rw [slotFor, if_pos hnone] at hgives ⊢
    obtain ⟨-, rfl⟩ := gives_pure.1 hgives
    exact .refl ⟨.refl _ _, h, if_pos hnone⟩
  · have ht : type.isInteger := htype.resolve_right fun hvoid => hnone (.inl hvoid)
    rw [slotFor, if_neg hnone] at hgives hslots ⊢
    rw [Eval.matchValue, if_neg hnone]
    obtain ⟨v', d1, hconvert, hemit⟩ := gives_bind.1 hgives
    have honward1 := (Grows.convert _ _).draft hconvert
    have hcovers1 := hcovers.of_grows ((Grows.emit _).draft hemit)
    refine (h.convert hv ht hconvert hcovers1).trans fun m1 h1 => ?_
    have hmemory := h1.state.agrees.allocated ⟨.result k, type.machine⟩ (hslots (by simp))
    obtain ⟨top, hstep, hat, hfollows, hscopes, hregisters, hslots', hchanged⟩ :=
      h1.state.store platform h1.holds hmemory hemit hcovers
    refine .of_step hstep (.refl ⟨h1.follows.trans hfollows honward1.registers, ⟨hat, ?_⟩, ?_⟩)
    · refine h1.state.agrees.follow hfollows (fun slot hslot => ?_) (fun name i _ => ?_) h1.state.agrees.output rfl
        hscopes (Nat.le_of_eq hregisters.symm) (Nat.le_of_eq (by rw [hslots']))
      · show top.memory slot ≠ none
        rw [hchanged]
        split
        · exact Option.some_ne_none _
        · exact hslot
      · show top.memory _ = _
        rw [hchanged, if_neg (by simp)]
    · exact ⟨Value.machine_ofInt ht, by rw [hchanged, if_pos rfl]⟩

theorem State.loadResult {slot : Option Slot} (h : site.State locals w d m) (hstores : m.Stores x slot)
    (hgives : (loadResult slot).Gives d v d') (hcovers : site.Covers d') :
    m.Reaches platform fun m' => site.Yields locals w d d' m m' (.value x v) := by
  cases slot with
  | none =>
    obtain rfl : x = .nothing := hstores
    obtain ⟨rfl, rfl⟩ := gives_pure.1 hgives
    exact .refl (.refl h rfl)
  | some =>
    refine h.emitValue hgives hcovers hstores.1.symm fun rest => ?_
    simp [execute, Activation.load, skip, goto, hstores.2, bind, Except.bind, pure, Except.pure]

end Site

end LocLang
