import LocLang.Proofs.Lowering.Growth
import LocLang.Proofs.Lowering.Scoping
import LocLang.Proofs.Semantics.Performs
import LocLang.Proofs.Semantics.Words

namespace LocLang

open Scope.Frame List

variable {inner : Locals} {name : String} {u : Unit}

/-- Whether an operand has the given value. Of the registers only the first `n` count. -/
def Activation.Holds (top : Activation) (n : Nat) (x : Value) : Operand → Prop
  | .const c => c = x.constant
  | .param name type => type = x.type.machine ∧ top.args.lookup name = some x.word
  | .reg i type => type = x.type.machine ∧ i < n ∧ top.registers i = some x.word

/-- Whether the same function is still running, with the same values in its first `n` registers. -/
structure Machine.Follows (n : Nat) (m m' : Machine) : Prop where
  callers : m'.callers = m.callers
  code : m'.top.code = m.top.code
  args : m'.top.args = m.top.args
  registers : ∀ i < n, m'.top.registers i = m.top.registers i

namespace Machine.Follows

variable {n n' : Nat} {m m' m'' : Machine}

theorem refl (n : Nat) (m : Machine) : m.Follows n m :=
  ⟨rfl, rfl, rfl, fun _ _ => rfl⟩

theorem trans (h : m.Follows n m') (h' : m'.Follows n' m'') (hle : n ≤ n') : m.Follows n m'' :=
  ⟨h'.callers.trans h.callers, h'.code.trans h.code, h'.args.trans h.args,
    fun i hi => (h'.registers i (Nat.lt_of_lt_of_le hi hle)).trans (h.registers i hi)⟩

end Machine.Follows

namespace Activation.Holds

variable {top : Activation} {n n' : Nat} {x : Value} {v : Operand}

theorem type_eq (h : top.Holds n x v) : v.type = x.type.machine := by
  cases v with
  | const c =>
    obtain rfl : c = x.constant := h
    rfl
  | param | reg => exact h.1

theorem read_eq (platform : Platform) (h : top.Holds n x v) : top.read platform v = .ok x.word := by
  cases v with
  | const c =>
    obtain rfl : c = x.constant := h
    exact top.read_constant x
  | param => simp [Activation.read, h.2]
  | reg => simp [Activation.read, h.2.2]

theorem follow {m m' : Machine} (h : m.top.Holds n x v) (hfollows : m.Follows n m') (hle : n ≤ n') :
    m'.top.Holds n' x v := by
  cases v with
  | const => exact h
  | param => exact ⟨h.1, hfollows.args ▸ h.2⟩
  | reg i => exact ⟨h.1, Nat.lt_of_lt_of_le h.2.1 hle, (hfollows.registers i h.2.1).trans h.2.2⟩

end Activation.Holds

/-- What the machine holds if so many registers count. It holds that as long as only new registers change. -/
structure Held where
  holds : Machine → Nat → Prop
  follow : ∀ {m m' : Machine} {n n' : Nat}, holds m n → m.Follows n m' → n ≤ n' → holds m' n'

namespace Held

def none : Held :=
  ⟨fun _ _ => True, fun _ _ _ => trivial⟩

def value (x : Value) (v : Operand) : Held :=
  ⟨fun m n => m.top.Holds n x v, Activation.Holds.follow⟩

def typed (x : Value) (t : Ty) (v : Operand) : Held :=
  ⟨fun m n => x.type.machine = t.machine ∧ m.top.Holds n x v, fun h hfollows hle => ⟨h.1, h.2.follow hfollows hle⟩⟩

def and (K L : Held) : Held :=
  ⟨fun m n => K.holds m n ∧ L.holds m n, fun h hfollows hle =>
    ⟨K.follow h.1 hfollows hle, L.follow h.2 hfollows hle⟩⟩

/-- Whether a value is known to be in an operand. -/
structure Has (K : Held) (x : Value) (v : Operand) : Prop where
  holds : ∀ {m : Machine} {n : Nat}, K.holds m n → m.top.Holds n x v

variable {K : Held} {x : Value} {v : Operand}

theorem has_value : (value x v).Has x v :=
  ⟨id⟩

theorem has_last : (K.and (value x v)).Has x v :=
  ⟨fun h => h.2⟩

theorem has_typed {t : Ty} : (K.and (typed x t v)).Has x v :=
  ⟨fun h => h.2.2⟩

theorem Has.and (h : K.Has x v) (L : Held) : (K.and L).Has x v :=
  ⟨fun h' => h.holds h'.1⟩

theorem has_const {c : Constant} (h : c = x.constant) : K.Has x (.const c) :=
  ⟨fun _ => h⟩

end Held

/-- Whether a name means the same in both runs, if so many registers and slots count. The slot of a variable holds what
    its cell holds. -/
def Local.Agrees (cells : List Value) (registers slots : Nat) (top : Activation) : Local → Binding → Prop
  | .cell index type, .slot slot =>
    type.isInteger ∧ slot.type = type.machine ∧ (∃ name i, slot.name = .named name i ∧ i < slots) ∧
      ∃ x : Value, cells[index]? = some x ∧ x.type.machine = slot.type ∧ top.memory slot.name = some (some x.word)
  | .value x, .value v => top.Holds registers x v
  | _, _ => False

/-- Whether names mean the same in both runs, one by one. -/
inductive Locals.Agree (cells : List Value) (registers slots : Nat) (top : Activation) :
    Locals → Scope.Frame Binding → Prop where
  | nil : Agree cells registers slots top [] []
  | cons {l : Local} {name : String} {depth : Nat} {b : Binding} {locals : Locals} {frame : Scope.Frame Binding}
      (head : l.Agrees cells registers slots top b) (tail : Agree cells registers slots top locals frame) :
      Agree cells registers slots top ((name, l) :: locals) (⟨name, depth, b⟩ :: frame)

/-- The cells of variables with their slots. -/
def Locals.links (locals : Locals) (frame : Scope.Frame Binding) : List (Nat × SlotName) :=
  (locals.zip frame).filterMap fun
    | ((_, .cell index _), ⟨_, _, .slot slot⟩) => some (index, slot.name)
    | _ => none

theorem Locals.links_subset_cons (p : String × Local) (entry : Scope.Entry Binding) (locals : Locals)
    (frame : Scope.Frame Binding) : locals.links frame ⊆ links (p :: locals) (entry :: frame) := by
  intro link hlink
  rw [links, zip_cons_cons, filterMap_cons]
  split
  · exact hlink
  · exact mem_cons_of_mem _ hlink

namespace Locals.Agree

variable {cells cells' : List Value} {registers registers' slots slots' : Nat} {top top' : Activation}
  {locals : Locals} {frame : Scope.Frame Binding} {innerFrame : Scope.Frame Binding}

theorem length_eq (h : Agree cells registers slots top locals frame) : locals.length = frame.length := by
  induction h with
  | nil => rfl
  | cons _ _ ih => rw [length_cons, length_cons, ih]

/-- The names of an enclosing scope. -/
theorem outer (h : Agree cells registers slots top (inner ++ locals) (innerFrame ++ frame))
    (hlength : locals.length = frame.length) : Agree cells registers slots top locals frame := by
  have hlengths := h.length_eq
  rw [length_append, length_append, hlength, Nat.add_right_cancel_iff] at hlengths
  induction inner generalizing innerFrame with
  | nil =>
    obtain rfl := length_eq_zero_iff.1 hlengths.symm
    exact h
  | cons _ _ ih =>
    cases innerFrame with
    | nil => cases hlengths
    | cons =>
      cases h with
      | cons _ tail => exact ih tail (Nat.succ_inj.1 hlengths)

/-- A name is found in both runs or in neither. -/
theorem lookup (h : Agree cells registers slots top locals frame) (name : String) :
    (∃ l entry, locals.lookup name = some l ∧ frame.get? name = some entry ∧
      l.Agrees cells registers slots top entry.value ∧
      (∀ index type slot, l = .cell index type → entry.value = .slot slot → (index, slot.name) ∈ locals.links frame)) ∨
    locals.lookup name = none ∧ frame.get? name = none := by
  induction h with
  | nil => exact .inr ⟨rfl, rfl⟩
  | @cons l declared depth b locals frame head _ ih =>
    by_cases hname : declared = name
    · refine .inl ⟨l, ⟨declared, depth, b⟩, by simp [hname], by simp [get?, hname], head, ?_⟩
      rintro index type slot rfl rfl
      simp [links]
    · have hlookup : List.lookup name ((declared, l) :: locals) = locals.lookup name := by
        rw [lookup_cons, beq_false_of_ne (Ne.symm hname)]
      have hget : get? (⟨declared, depth, b⟩ :: frame) name = get? frame name := by
        simp [get?, hname]
      rw [hlookup, hget]
      rcases ih with ⟨l', entry', hl', hentry', hagrees, hlinks⟩ | hnone
      · refine .inl ⟨l', entry', hl', hentry', hagrees, fun index type slot hcell hslot => ?_⟩
        exact links_subset_cons _ _ _ _ (hlinks index type slot hcell hslot)
      · exact .inr hnone

theorem links_subset_outer (locals : Locals) (frame : Scope.Frame Binding)
    (hlength : inner.length = innerFrame.length) :
    locals.links frame ⊆ links (inner ++ locals) (innerFrame ++ frame) := by
  induction inner generalizing innerFrame with
  | nil =>
    obtain rfl := length_eq_zero_iff.1 hlength.symm
    exact Subset.refl _
  | cons _ _ ih =>
    cases innerFrame with
    | nil => cases hlength
    | cons => exact Subset.trans (ih (Nat.succ_inj.1 hlength)) (links_subset_cons _ _ _ _)

/-- The slot of a variable is among those made so far, and its cell among the cells. -/
theorem of_mem_links (h : Agree cells registers slots top locals frame) {p : Nat × SlotName}
    (hp : p ∈ locals.links frame) : p.1 < cells.length ∧ ∃ name i, p.2 = .named name i ∧ i < slots := by
  induction h with
  | nil => cases hp
  | @cons l _ _ b _ _ head _ ih =>
    cases l with
    | value => exact ih hp
    | cell =>
      cases b with
      | slot slot =>
        rcases mem_cons.1 hp with rfl | hp
        · obtain ⟨-, -, hname, x, hx, -⟩ := head
          exact ⟨(List.getElem?_eq_some_iff.1 hx).1, hname⟩
        · exact ih hp
      | value | function => cases head

/-- Names go on to mean the same if values stay and what happens to a cell happens to its slot. -/
theorem change (h : Agree cells registers slots top locals frame)
    (hvalues : ∀ x v, top.Holds registers x v → top'.Holds registers' x v) (hslots : slots ≤ slots')
    (hcells : ∀ p ∈ locals.links frame, ∀ x : Value, cells[p.1]? = some x → top.memory p.2 = some (some x.word) →
      ∃ x' : Value, cells'[p.1]? = some x' ∧ x'.type.machine = x.type.machine ∧
        top'.memory p.2 = some (some x'.word)) : Agree cells' registers' slots' top' locals frame := by
  induction h with
  | nil => exact .nil
  | @cons l name _ b _ _ head _ ih =>
    refine .cons ?_ (ih fun p hp => hcells p (links_subset_cons _ _ _ _ hp))
    cases l with
    | value x =>
      cases b with
      | value v => exact hvalues x v head
      | slot | function => cases head
    | cell index =>
      cases b with
      | slot slot =>
        obtain ⟨hinteger, htype, ⟨slotName, i, hname, hi⟩, x, hx, hxtype, hmemory⟩ := head
        obtain ⟨x', hx', hsame, hmemory'⟩ := hcells (index, slot.name) mem_cons_self x hx hmemory
        exact ⟨hinteger, htype, ⟨slotName, i, hname, Nat.lt_of_lt_of_le hi hslots⟩, x', hx',
          hsame.trans hxtype, hmemory'⟩
      | value | function => cases head

/-- A new variable, in a slot that comes after those made so far. -/
theorem declareCell (h : Agree cells registers slots top locals frame) {x : Value} {t : Ty} {slot : Slot}
    (ht : t.isInteger) (htype : x.type.machine = t.machine) (hslot : slot = ⟨.named name slots, t.machine⟩)
    (hvalues : ∀ x v, top.Holds registers x v → top'.Holds registers' x v)
    (hmemory : ∀ s, top'.memory s = if s = slot.name then some (some x.word) else top.memory s)
    (depth : Nat) : Agree (cells ++ [x]) registers' (slots + 1) top' ((name, .cell cells.length t) :: locals)
    (⟨name, depth, .slot slot⟩ :: frame) := by
  subst hslot
  refine .cons ?_ ?_
  · refine ⟨ht, rfl, ⟨name, _, rfl, ?_⟩, x, by simp, htype, ?_⟩
    · exact Nat.lt_succ_self _
    · rw [hmemory, if_pos rfl]
  · refine h.change hvalues (Nat.le_succ _) fun p hp y hy hy' => ?_
    obtain ⟨hlt, other, i, hother, hi⟩ := h.of_mem_links hp
    refine ⟨y, ?_, rfl, ?_⟩
    · rw [List.getElem?_append_left hlt, hy]
    · rw [hmemory, if_neg, hy']
      rw [hother]
      intro heq
      cases heq
      exact Nat.lt_irrefl _ hi

/-- A new variable has a cell and a slot of its own. -/
theorem paired_declareCell (h : Agree cells registers slots top locals frame) {t : Ty} {type : MachineTy}
    (hpaired : ∀ p ∈ locals.links frame, ∀ q ∈ locals.links frame, p.1 = q.1 ↔ p.2 = q.2) (depth : Nat) :
    ∀ p ∈ links ((name, .cell cells.length t) :: locals) (⟨name, depth, .slot ⟨.named name slots, type⟩⟩ :: frame),
      ∀ q ∈ links ((name, .cell cells.length t) :: locals) (⟨name, depth, .slot ⟨.named name slots, type⟩⟩ :: frame),
        p.1 = q.1 ↔ p.2 = q.2 := by
  have hnew {p : Nat × SlotName} (hp : p ∈ locals.links frame) :
      p.1 ≠ cells.length ∧ p.2 ≠ .named name slots := by
    obtain ⟨hlt, other, i, hother, hi⟩ := h.of_mem_links hp
    refine ⟨Nat.ne_of_lt hlt, fun heq => ?_⟩
    rw [hother] at heq
    cases heq
    exact Nat.lt_irrefl _ hi
  intro p hp q hq
  rcases mem_cons.1 hp with rfl | hp <;> rcases mem_cons.1 hq with rfl | hq
  · exact iff_of_true rfl rfl
  · exact iff_of_false (hnew hq).1.symm (hnew hq).2.symm
  · exact iff_of_false (hnew hp).1 (hnew hp).2
  · exact hpaired p hp q hq

/-- Names that meant something earlier have the values that they have now. -/
theorem rewind (h : Agree cells registers slots top locals frame)
    (h' : Agree cells' registers' slots' top' locals frame) : Agree cells' registers slots top' locals frame := by
  induction h with
  | nil => exact .nil
  | @cons l _ _ b _ _ head _ ih =>
    cases h' with
    | cons head' tail' =>
      refine .cons ?_ (ih tail')
      cases l with
      | value =>
        cases b with
        | value v =>
          cases v with
          | const | param => exact head'
          | reg => exact ⟨head'.1, head.2.1, head'.2.2⟩
        | slot | function => cases head
      | cell =>
        cases b with
        | slot slot =>
          obtain ⟨hinteger, htype, hname, -⟩ := head
          obtain ⟨-, -, -, hx⟩ := head'
          exact ⟨hinteger, htype, hname, hx⟩
        | value | function => cases head

end Locals.Agree

/-- Whether a draft goes on where another one stops, with the same names. -/
structure Draft.Beyond (d d' : Draft) : Prop extends d.Grows d' where
  scopes_eq : d'.scopes = d.scopes

theorem Draft.Beyond.refl (d : Draft) : d.Beyond d :=
  ⟨.refl d, rfl⟩

theorem Draft.Beyond.trans {d d' d'' : Draft} (h : d.Beyond d') (h' : d'.Beyond d'') : d.Beyond d'' :=
  ⟨h.toGrows.trans h'.toGrows, h'.scopes_eq.trans h.scopes_eq⟩

theorem Lower.Steady.beyond {α : Type} {x : Lower α} {d d' : Draft} {a : α} (hsteady : Lower.Steady x)
    (hgrows : Lower.Grows x) (h : x.Gives d a d') : d.Beyond d' :=
  ⟨hgrows.draft h, hsteady.scopes_eq h⟩

theorem Lower.beyond_place {label : Label} {d d' : Draft} (h : (place label).Gives d u d') : d.Beyond d' :=
  ⟨(Grows.place _).draft h, (Steady.place label).scopes_eq h⟩

theorem Lower.beyond_armList {env : Env} {n k : Nat} {v : Operand} {slot : Option Slot} {arms : List (Arm Ty)}
    {d d' : Draft} (h : (armList env n v slot k arms).Gives d u d') : d.Beyond d' :=
  (armList_steady env n v slot k arms).beyond (armList_grows env n v slot k arms) h

/-- A function that was drafted to its end in a module whose functions are declared. -/
structure Site where
  draft : Draft
  isClosed : draft.current = none
  starts : draft.blockLabels.head? = some .entry
  nodup : draft.blockLabels.Nodup
  base : Scope.Frame Binding
  functions_only : ∀ entry ∈ base, ∃ s, entry.value = .function s

namespace Site

variable {site : Site} {label : Label} {top : Activation} {d d' d'' : Draft} {b : IrBlock}

theorem blockLabels_eq (site : Site) : site.draft.blockLabels = site.draft.closed.map (·.label) := by
  simp [Draft.blockLabels, site.isClosed]

theorem find?_label (site : Site) (hb : b ∈ site.draft.closed) :
    site.draft.closed.find? (·.label = b.label) = some b :=
  find?_of_nodup_key (·.label) (site.blockLabels_eq ▸ site.nodup) hb

theorem eq_of_label {b' : IrBlock} (hb : b ∈ site.draft.closed) (hb' : b' ∈ site.draft.closed)
    (h : b.label = b'.label) : b = b' := by
  have hfind := site.find?_label hb
  rw [h, site.find?_label hb'] at hfind
  cases hfind
  rfl

/-- Every block but the first is run as it was drafted. -/
theorem find?_finished (hb : b ∈ site.draft.closed) (hlabel : b.label ≠ .entry) :
    site.draft.finished.find? (·.label = b.label) = some b := by
  have hstarts := site.starts
  have hfind := site.find?_label hb
  rw [site.blockLabels_eq] at hstarts
  cases hclosed : site.draft.closed with
  | nil =>
    rw [hclosed] at hb
    cases hb
  | cons first =>
    rw [hclosed] at hstarts hfind
    rw [Draft.finished_of_cons hclosed]
    have hfirst : first.label = .entry := by simpa using hstarts
    have hne : first.label ≠ b.label := fun h => hlabel (h ▸ hfirst)
    simpa [hne] using hfind

/-- Whether a draft is on the way to the end of the function. -/
structure Covers (site : Site) (d : Draft) : Prop where
  within : d.Within site.draft.closed
  slots : d.slots <+: site.draft.slots

theorem Covers.of_grows (h : site.Covers d') (honward : d.Grows d') : site.Covers d :=
  ⟨honward.within _ h.within, honward.slots.trans h.slots⟩

theorem covers_draft (site : Site) : site.Covers site.draft :=
  ⟨⟨Subset.refl _, by simp [site.isClosed]⟩, prefix_rfl⟩

/-- Whether the machine is where the code of a draft ends so far. -/
def At (site : Site) (d : Draft) (top : Activation) : Prop :=
  ∃ b block, d.current = some b ∧ block ∈ site.draft.closed ∧ block.label = b.label ∧
    block.insts = b.insts ++ top.insts ∧ block.term = top.term

def Enters (site : Site) (label : Label) (top : Activation) : Prop :=
  ∃ block ∈ site.draft.closed, block.label = label ∧ top.insts = block.insts ∧ top.term = block.term

theorem Enters.at (h : site.Enters label top) (hd : d.current = some { label }) : site.At d top := by
  obtain ⟨block, hblock, hlabel, hinsts, hterm⟩ := h
  exact ⟨_, block, hd, hblock, hlabel, hinsts.symm, hterm.symm⟩

/-- What is drafted next is what is run next. -/
theorem At.emit {i : Inst} (h : site.At d top) (hgives : (Lower.emit i).Gives d u d') (hcovers : site.Covers d') :
    ∃ rest, top.insts = i :: rest ∧
      ∀ top' : Activation, top'.insts = rest → top'.term = top.term → site.At d' top' := by
  obtain ⟨b, block, hb, hblock, hlabel, hinsts, hterm⟩ := h
  obtain ⟨b', hb', rfl⟩ := Lower.gives_emit.1 hgives
  rw [hb] at hb'
  cases hb'
  obtain ⟨block', hblock', hlabel', hprefix⟩ := hcovers.within.current _ rfl
  obtain rfl := eq_of_label hblock' hblock (hlabel'.trans hlabel.symm)
  rw [hinsts, prefix_append_right_inj] at hprefix
  obtain ⟨rest, hrest⟩ := hprefix
  refine ⟨rest, hrest.symm, fun top' hinsts' hterm' => ⟨_, block', rfl, hblock, hlabel, ?_, hterm.trans hterm'.symm⟩⟩
  rw [hinsts, ← hrest, hinsts', append_assoc]

theorem At.terminate {t : Terminator} (h : site.At d top) (hgives : (Lower.terminate t).Gives d u d')
    (hcovers : site.Covers d') : top.insts = [] ∧ top.term = t := by
  obtain ⟨b, block, hb, hblock, hlabel, hinsts, hterm⟩ := h
  obtain ⟨b', hb', rfl⟩ := Lower.gives_terminate.1 hgives
  rw [hb] at hb'
  cases hb'
  have hclosed : b.close t ∈ site.draft.closed := hcovers.within.closed (by simp)
  obtain rfl := eq_of_label hclosed hblock hlabel.symm
  exact ⟨by simpa [OpenBlock.close] using hinsts, hterm.symm⟩

/-- Whether a block, other than the first one, is drafted. -/
def Has (site : Site) (label : Label) : Prop :=
  label ≠ .entry ∧ ∃ d, site.Covers d ∧ d.current = some { label }

/-- A block that is drafted can be entered. -/
theorem jump (h : site.Has label) (hcode : top.code = site.draft.finished) :
    ∃ insts term, top.jump label = .ok { top with insts, term } ∧ site.Enters label { top with insts, term } := by
  obtain ⟨hlabel, d, hcovers, hd⟩ := h
  obtain ⟨block, hblock, rfl, -⟩ := hcovers.within.current _ hd
  refine ⟨block.insts, block.term, ?_, block, hblock, rfl, rfl, rfl⟩
  rw [Activation.jump, hcode, find?_finished hblock hlabel]

/-- Whether the machine agrees with a run from the tree, wherever it is in the function. -/
structure Agrees (site : Site) (locals : Locals) (w : World) (d : Draft) (m : Machine) : Prop where
  code : m.top.code = site.draft.finished
  allocated : ∀ slot ∈ site.draft.slots, m.top.memory slot.name ≠ none
  output : m.output = w.output
  isOpen : d.scopes.inner ≠ []
  base : d.scopes.base = site.base
  names : locals.Agree w.cells d.registers d.slots.length m.top d.scopes.inner.flatten
  paired : ∀ p ∈ locals.links d.scopes.inner.flatten, ∀ q ∈ locals.links d.scopes.inner.flatten, p.1 = q.1 ↔ p.2 = q.2

/-- Whether the machine agrees with a run from the tree and is where the code of a draft ends so far. -/
structure State (site : Site) (locals : Locals) (w : World) (d : Draft) (m : Machine) : Prop where
  here : site.At d m.top
  agrees : site.Agrees locals w d m

/-- Whether the machine has come to the end of the code of an expression and holds what it wants. -/
structure Yields (site : Site) (locals : Locals) (w : World) (d d' : Draft) (m m' : Machine) (K : Held) : Prop where
  state : site.State locals w d' m'
  follows : m.Follows d.registers m'
  holds : K.holds m' d'.registers

variable {locals : Locals} {w w' : World} {m m' : Machine}

/-- Agreement goes on if only new registers change, and slots that no variable has. -/
theorem Agrees.follow (h : site.Agrees locals w d m) (hfollows : m.Follows d.registers m')
    (hmemory : ∀ slot, m.top.memory slot ≠ none → m'.top.memory slot ≠ none)
    (hnamed : ∀ name i, i < d.slots.length → m'.top.memory (.named name i) = m.top.memory (.named name i))
    (houtput : m'.output = w'.output) (hcells : w'.cells = w.cells) (hscopes : d'.scopes = d.scopes)
    (hregisters : d.registers ≤ d'.registers) (hslots : d.slots.length ≤ d'.slots.length) : site.Agrees
    locals w' d' m' where
  code := hfollows.code.trans h.code
  allocated slot hslot := hmemory _ (h.allocated slot hslot)
  output := houtput
  isOpen := hscopes ▸ h.isOpen
  base := hscopes ▸ h.base
  names := by
    rw [hscopes]
    refine h.names.change (fun x v hv => hv.follow hfollows hregisters) hslots fun p hp x hx hx' => ?_
    obtain ⟨-, name, i, hp, hi⟩ := h.names.of_mem_links hp
    exact ⟨x, hcells ▸ hx, rfl, by rw [hp, hnamed name i hi, ← hp, hx']⟩
  paired := hscopes ▸ h.paired

/-- Agreement does not depend on how far the draft is. -/
theorem Agrees.beyond (h : site.Agrees locals w d m) (hbeyond : d.Beyond d') : site.Agrees locals w d' m :=
  h.follow (.refl _ _) (fun _ hslot => hslot) (fun _ _ _ => rfl) h.output rfl hbeyond.scopes_eq hbeyond.registers
    hbeyond.slots.length_le

/-- Agreement with an earlier draft, to which the machine comes back. -/
theorem Agrees.rewind {m1 : Machine} {w1 : World} (h : site.Agrees locals w d m) (h' : site.Agrees locals w1 d' m1)
    (hscopes : d'.scopes = d.scopes) : site.Agrees locals w1 d m1 where
  code := h'.code
  allocated := h'.allocated
  output := h'.output
  isOpen := h.isOpen
  base := h.base
  names := h.names.rewind (hscopes ▸ h'.names)
  paired := h.paired

/-- The names of the enclosing scope after the innermost one is closed. -/
theorem Agrees.pop {s : Scopes Binding} (h : site.Agrees (inner ++ locals) w d m)
    (hsame : s.push.SameOutside d.scopes) (hopen : s.inner ≠ []) (hlength : locals.length = s.inner.flatten.length) :
    site.Agrees locals w { d with scopes := d.scopes.pop } m := by
  obtain ⟨frame, hinner⟩ : ∃ frame, d.scopes.inner = frame :: s.inner := by
    have hpop := hsame.pop_eq_of_push
    cases hd : d.scopes.inner with
    | nil => exact absurd hd hsame.open_right
    | cons frame outer =>
      have houter : outer = s.inner := by simpa [Scopes.pop, hd] using congrArg Scopes.inner hpop
      exact ⟨frame, by rw [houter]⟩
  have hflatten : d.scopes.inner.flatten = frame ++ s.inner.flatten := by rw [hinner, flatten_cons]
  have hlocals := h.names
  have hpaired := h.paired
  rw [hflatten] at hlocals hpaired
  have hlengths := hlocals.length_eq
  rw [length_append, length_append, hlength, Nat.add_right_cancel_iff] at hlengths
  have hsubset := Locals.Agree.links_subset_outer locals s.inner.flatten hlengths
  rw [hsame.pop_eq_of_push]
  exact
    { code := h.code
      allocated := h.allocated
      output := h.output
      isOpen := hopen
      base := hsame.base_eq.symm.trans h.base
      names := hlocals.outer hlength
      paired := fun p hp q hq => hpaired p (hsubset hp) q (hsubset hq) }

theorem Agrees.declareValue {x : Value} {v : Operand} (h : site.Agrees locals w d m) (name : String)
    (hv : m.top.Holds d.registers x v) :
    site.Agrees ((name, .value x) :: locals) w { d with scopes := d.scopes.declare name (.value v) } m := by
  have hsame := Scopes.sameOutside_declare h.isOpen name (.value v)
  exact
    { code := h.code
      allocated := h.allocated
      output := h.output
      isOpen := hsame.open_right
      base := hsame.base_eq.trans h.base
      names := by
        rw [Scopes.flatten_declare h.isOpen]
        exact .cons hv h.names
      paired := by
        rw [Scopes.flatten_declare h.isOpen]
        exact h.paired }

theorem Agrees.push (h : site.Agrees locals w d m) : site.Agrees locals w { d with scopes := d.scopes.push } m where
  code := h.code
  allocated := h.allocated
  output := h.output
  isOpen := Scopes.push_inner_ne_nil _
  base := h.base
  names := h.names
  paired := h.paired

/-- What a name refers to in the draft is what it refers to in the run, or a function of the module. -/
theorem Agrees.lookup {b : Binding} (h : site.Agrees locals w d m) (hfinds : d.scopes.Finds name b) :
    (∃ l, locals.lookup name = some l ∧ l.Agrees w.cells d.registers d.slots.length m.top b ∧
      ∀ index type slot, l = .cell index type → b = .slot slot →
        (index, slot.name) ∈ locals.links d.scopes.inner.flatten) ∨
    locals.lookup name = none ∧ ∃ entry ∈ site.base, entry.name = name ∧ entry.value = b := by
  obtain ⟨entry, hresolve, rfl⟩ := hfinds
  have hframes : d.scopes.resolve? name = (d.scopes.inner.flatten ++ d.scopes.base).find? (·.name = name) := by
    rw [Scopes.resolve?, Scopes.frames, find?_append, find?_flatten, findSome?_append]
    simp [get?]
  rw [hframes, find?_append] at hresolve
  rcases h.names.lookup name with ⟨l, entry', hl, hget, hagrees, hlinks⟩ | ⟨hnone, hget⟩
  · rw [get?] at hget
    rw [hget] at hresolve
    cases hresolve
    exact .inl ⟨l, hl, hagrees, hlinks⟩
  · rw [get?] at hget
    rw [hget, Option.none_or, h.base] at hresolve
    exact .inr ⟨hnone, entry, mem_of_find?_eq_some hresolve, by simpa using find?_some hresolve, rfl⟩

end Site

end LocLang
