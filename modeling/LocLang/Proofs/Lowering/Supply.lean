import LocLang.Proofs.Lowering.Jumps

namespace LocLang

open Draft List Subset

variable {i : Inst}

/-- What instructions set and need: the value of a register, or what is in a slot. -/
inductive Item where
  | register (index : Nat)
  | slot (s : Slot)

/-- The register that an operand is the value of, if any. -/
def Operand.items : Operand → List Item
  | reg index _ => [.register index]
  | const _ | param _ _ => []

/-- What the use of a name needs. -/
def Binding.items : Binding → List Item
  | slot s => [.slot s]
  | value v => v.items
  | function _ => []

namespace Inst

def result? (i : Inst) : Option Nat :=
  i.register?.map (·.1)

def sets : Inst → List Item
  | store _ slot => [.slot slot]
  | i => i.result?.toList.map .register

/-- What an instruction needs, the slot that it reads included if slots count. -/
def needs (slots : Bool) : Inst → List Item
  | load _ slot => if slots then [.slot slot] else []
  | i => i.operands.flatMap (·.items)

/-- What instructions set, all of them together. -/
def setBy (insts : List Inst) : List Item :=
  insts.flatMap (·.sets)

theorem register_mem_sets {index : Nat} : .register index ∈ i.sets ↔ i.result? = some index := by
  cases i <;> simp [sets, result?, register?, eq_comm]

theorem slot_mem_sets {s : Slot} : .slot s ∈ i.sets ↔ ∃ v, i = .store v s := by
  cases i <;> simp [sets, eq_comm]

theorem items_subset_needs {v : Operand} (h : v ∈ i.operands) (slots : Bool) : v.items ⊆ i.needs slots := by
  cases i with
  | load => cases h
  | _ => exact fun x hx => mem_flatMap.2 ⟨v, h, hx⟩

theorem setBy_concat (insts : List Inst) (i : Inst) : setBy (insts ++ [i]) = setBy insts ++ i.sets := by
  simp [setBy]

theorem setBy_allocas (slots : List Slot) (insts : List Inst) : setBy (slots.map .alloca ++ insts) = setBy insts := by
  simp [setBy, flatMap_map, sets, result?, register?]

/-- Whether the instructions of a block need only what is known where it starts and what is set before; and whether the
    registers that are known have their values from earlier blocks. -/
structure Sound (slots : Bool) (earlier : List IrBlock) (known : List Item) (insts : List Inst) : Prop where
  supplied : ∀ before i after, insts = before ++ i :: after → i.needs slots ⊆ known ++ setBy before
  earlier : ∀ index, .register index ∈ known → ∃ c ∈ earlier, .register index ∈ setBy c.insts

end Inst

/-- A split of a list with one more element at its end. -/
theorem eq_append_cons_of_concat {α : Type} {l before after : List α} {a b : α} (h : l ++ [a] = before ++ b :: after) :
    before = l ∧ b = a ∨ ∃ after', l = before ++ b :: after' := by
  rcases eq_nil_or_concat after with rfl | ⟨after', last, rfl⟩
  · obtain ⟨rfl, hlast⟩ := append_inj' h rfl
    cases hlast
    exact .inl ⟨rfl, rfl⟩
  · rw [concat_eq_append, ← cons_append, ← append_assoc] at h
    exact .inr ⟨after', (append_inj' h rfl).1⟩

theorem Inst.Sound.append {slots : Bool} {earlier : List IrBlock} {known : List Item} {insts : List Inst}
    (h : Sound slots earlier known insts) (hi : i.needs slots ⊆ known ++ setBy insts) :
    Sound slots earlier known (insts ++ [i]) := by
  refine ⟨fun before j after heq => ?_, h.earlier⟩
  rcases eq_append_cons_of_concat heq with ⟨rfl, rfl⟩ | ⟨after', heq⟩
  · exact hi
  · exact h.supplied before j after' heq

/-- What is known at a block has been set on every way to it, if every jump is from where that is so. -/
theorem IrFunction.exists_passed {f : IrFunction} (known : Label → List Item) (hentry : known .entry = [])
    (hedges : ∀ b ∈ f.blocks, ∀ t ∈ b.term.targets, known t ⊆ known b.label ++ Inst.setBy b.insts) {path : List Label}
    (hpath : f.Path path) : ∀ l passed, path = l :: passed → ∀ x ∈ known l,
      ∃ c ∈ f.blocks, c.label ∈ passed ∧ x ∈ Inst.setBy c.insts := by
  induction hpath with
  | entry =>
    rintro l passed ⟨⟩ x hx
    rw [hentry] at hx
    cases hx
  | @step b _ target _ mem jump ih =>
    rintro l passed' ⟨⟩ x hx
    rcases mem_append.1 (hedges b mem target jump hx) with hx | hx
    · obtain ⟨c, hc, hlabel, hset⟩ := ih _ _ rfl x hx
      exact ⟨c, hc, mem_cons_of_mem _ hlabel, hset⟩
    · exact ⟨b, mem, mem_cons_self, hx⟩

/-- What is set in front of each construct, and the slot that is written where it ends if it is a match. -/
abbrev Homes := List (List Item × List Slot)

namespace Label

def isMatchEnd : Label → Bool
  | matchEnd _ => true
  | _ => false

/-- What is known to be set where a block starts. -/
def known (homes : Homes) (l : Label) : List Item :=
  (l.number?.bind fun n => homes[n]?).elim [] fun w => if l.isMatchEnd then w.2.map .slot ++ w.1 else w.1

/-- Whether a block belongs to a construct and does not follow it as the end of a match. -/
def IsInside (n : Nat) (l : Label) : Prop :=
  l.number? = some n ∧ l.isMatchEnd = false

variable {homes homes' : Homes} {l : Label} {n : Nat} {home : List Item} {extra : List Slot}

theorem known_of_number (hn : l.number? = some n) (hhome : homes[n]? = some (home, extra)) :
    l.known homes = if l.isMatchEnd then extra.map .slot ++ home else home := by
  rw [known, hn, Option.bind_some, hhome, Option.elim_some]

theorem IsInside.known_eq (h : l.IsInside n) (hhome : homes[n]? = some (home, extra)) : l.known homes = home := by
  rw [known_of_number h.1 hhome, h.2, if_neg Bool.false_ne_true]

/-- More constructs do not change what is known at the blocks of those that are there. -/
theorem known_mono (h : homes <+: homes') (hn : ∀ n ∈ l.number?, n < homes.length) : l.known homes' =
    l.known homes := by
  cases hnumber : l.number? with
  | none => rw [known, known, hnumber, Option.bind_none, Option.bind_none]
  | some n =>
    obtain ⟨more, rfl⟩ := h
    rw [known, known, hnumber, Option.bind_some, Option.bind_some, List.getElem?_append_left (hn n hnumber)]

end Label

theorem Lower.isInside_nextTest {μ : Type} (n k : Nat) (arms : List (Arm μ)) : (nextTest n k arms).IsInside n := by
  rw [nextTest]
  split <;> exact ⟨rfl, rfl⟩

/-- What is found at a place stays there when more comes behind. -/
theorem getElem?_mono {α : Type} {l l' : List α} (h : l <+: l') {n : Nat} {a : α} (ha : l[n]? = some a) :
    l'[n]? = some a := by
  obtain ⟨more, rfl⟩ := h
  rw [List.getElem?_append_left (List.getElem?_eq_some_iff.1 ha).1, ha]

namespace Draft

variable {slots : Bool} {homes homes' : Homes} {base base' home : List Item} {extra : List Slot} {d d' : Draft}
  {l : Label} {n : Nat}

/-- Whether all code so far has what it needs, with what is known at the blocks of constructs. -/
structure Sound (slots : Bool) (homes : Homes) (d : Draft) : Prop where
  count : homes.length = d.labels
  numbers : ∀ l ∈ d.blockLabels, ∀ n ∈ l.number?, n < d.labels
  closed : ∀ earlier b later, d.closed = earlier ++ b :: later →
    Inst.Sound slots earlier (b.label.known homes) b.insts ∧
      b.term.operands.flatMap (·.items) ⊆ b.label.known homes ++ Inst.setBy b.insts
  current : ∀ b ∈ d.current, Inst.Sound slots d.closed (b.label.known homes) b.insts
  edges : ∀ b ∈ d.closed, ∀ t ∈ b.term.targets,
    (∀ n ∈ t.number?, n < d.labels) ∧ t.known homes ⊆ b.label.known homes ++ Inst.setBy b.insts

/-- Whether also what is in `base` is set where code is added. -/
structure Prepared (slots : Bool) (homes : Homes) (base : List Item) (d : Draft) : Prop where
  sound : d.Sound slots homes
  covers : ∀ b ∈ d.current, base ⊆ b.label.known homes ++ Inst.setBy b.insts
  made : ∀ index, .register index ∈ base → .register index ∈ Inst.setBy d.insts

/-- Whether the use of names needs only what is in `base`. -/
def Sees (base : List Item) (d : Draft) : Prop :=
  ∀ name b, d.scopes.Finds name b → b.items ⊆ base

theorem Sees.mono (h : d.Sees base) (hbase : base ⊆ base') : d.Sees base' :=
  fun name b hfinds => Subset.trans (h name b hfinds) hbase

theorem Sees.declare (h : d.Sees base) (name : String) {b : Binding} (hb : b.items ⊆ base) :
    Sees base { d with scopes := d.scopes.declare name b } := by
  intro other c hfinds
  rw [Scopes.finds_declare] at hfinds
  split at hfinds
  · exact hfinds ▸ hb
  · exact h other c hfinds

theorem Sees.steady {α : Type} {x : Lower α} {a : α} (h : d.Sees base) (hx : Lower.Steady x) (hgives : x.Gives d a d') :
    d'.Sees base := by
  rwa [Sees, hx.scopes_eq hgives]

/-- What is not code can change. -/
theorem Sound.of_eq (h : d.Sound slots homes) (hlabels : d'.labels = d.labels) (hclosed : d'.closed = d.closed)
    (hcurrent : d'.current = d.current) : d'.Sound slots homes := by
  refine ⟨hlabels ▸ h.count, ?_, hclosed ▸ h.closed, ?_, ?_⟩
  · rw [blockLabels, hclosed, hcurrent, hlabels]
    exact h.numbers
  · rw [hcurrent, hclosed]
    exact h.current
  · rw [hclosed, hlabels]
    exact h.edges

namespace Prepared

theorem of_eq (h : d.Prepared slots homes base) (hlabels : d'.labels = d.labels) (hclosed : d'.closed = d.closed)
    (hcurrent : d'.current = d.current) : d'.Prepared slots homes base := by
  refine ⟨h.sound.of_eq hlabels hclosed hcurrent, hcurrent ▸ h.covers, ?_⟩
  rw [insts, hclosed, hcurrent]
  exact h.made

theorem mono (h : d.Prepared slots homes base) (hbase : base' ⊆ base) : d.Prepared slots homes base' :=
  ⟨h.sound, fun b hb => Subset.trans hbase (h.covers b hb), fun index hindex => h.made index (hbase hindex)⟩

/-- A construct gets a number, and a home for its blocks. -/
theorem nextLabel (h : d.Prepared slots homes base) (w : List Item × List Slot) :
    Prepared slots (homes ++ [w]) base { d with labels := d.labels + 1 } := by
  have hsame {l : Label} (hl : ∀ n ∈ l.number?, n < d.labels) : l.known (homes ++ [w]) = l.known homes :=
    Label.known_mono (prefix_append _ _) (h.sound.count ▸ hl)
  have hclosed {b : IrBlock} (hb : b ∈ d.closed) : b.label.known (homes ++ [w]) = b.label.known homes :=
    hsame (h.sound.numbers b.label (mem_append_left _ (mem_map_of_mem hb)))
  have hcurrent {b : OpenBlock} (hb : b ∈ d.current) : b.label.known (homes ++ [w]) = b.label.known homes :=
    hsame (h.sound.numbers b.label (mem_append_right _ (mem_map_of_mem (Option.mem_toList.2 hb))))
  refine ⟨⟨by simp [h.sound.count], fun l hl n hn => Nat.lt_succ_of_lt (h.sound.numbers l hl n hn), ?_, ?_, ?_⟩, ?_,
    h.made⟩
  · intro earlier b later heq
    rw [hclosed (heq ▸ mem_append_right _ mem_cons_self)]
    exact h.sound.closed earlier b later heq
  · intro b hb
    rw [hcurrent hb]
    exact h.sound.current b hb
  · intro b hb t ht
    obtain ⟨hnumber, hsubset⟩ := h.sound.edges b hb t ht
    refine ⟨fun n hn => Nat.lt_succ_of_lt (hnumber n hn), ?_⟩
    rw [hsame hnumber, hclosed hb]
    exact hsubset
  · intro b hb
    rw [hcurrent hb]
    exact h.covers b hb

theorem emit (h : d.Prepared slots homes base) (hgives : (Lower.emit i).Gives d () d') (hi : i.needs slots ⊆ base) :
    d'.Prepared slots homes (i.sets ++ base) := by
  obtain ⟨b, hb, rfl⟩ := Lower.gives_emit.1 hgives
  refine ⟨⟨h.sound.count, ?_, h.sound.closed, ?_, h.sound.edges⟩, ?_, fun index hindex => ?_⟩
  · simpa [blockLabels, hb] using h.sound.numbers
  · rintro _ ⟨⟩
    exact (h.sound.current b hb).append (Subset.trans hi (h.covers b hb))
  · rintro _ ⟨⟩
    rw [Inst.setBy_concat, ← append_assoc]
    exact append_subset.2 ⟨subset_append_right _ _, subset_append_of_subset_left _ (h.covers b hb)⟩
  · rw [insts_emit hb, Inst.setBy_concat]
    rcases mem_append.1 hindex with hindex | hindex
    · exact mem_append_right _ hindex
    · exact mem_append_left _ (h.made index hindex)

/-- A block is closed. Where it goes to, nothing is known to be set but what is set in the block. -/
theorem terminate {t : Terminator} (h : d.Prepared slots homes base) (hgives : (Lower.terminate t).Gives d () d')
    (hoperands : t.operands.flatMap (·.items) ⊆ base)
    (htargets : ∀ k ∈ t.targets, (∃ n w, k.number? = some n ∧ homes[n]? = some w) ∧ k.known homes ⊆ base) :
    d'.Prepared slots homes base := by
  obtain ⟨b, hb, rfl⟩ := Lower.gives_terminate.1 hgives
  refine ⟨⟨h.sound.count, ?_, fun earlier c later heq => ?_, by simp, fun c hc k hk => ?_⟩, by simp, ?_⟩
  · simpa [blockLabels, hb, OpenBlock.close] using h.sound.numbers
  · rcases eq_append_cons_of_concat heq with ⟨rfl, rfl⟩ | ⟨later', heq⟩
    · exact ⟨h.sound.current b hb, Subset.trans hoperands (h.covers b hb)⟩
    · exact h.sound.closed earlier c later' heq
  · rcases mem_append.1 hc with hc | hc
    · exact h.sound.edges c hc k hk
    · rw [mem_singleton.1 hc] at hk ⊢
      obtain ⟨⟨n, w, hn, hw⟩, hsubset⟩ := htargets k hk
      refine ⟨fun m hm => ?_, Subset.trans hsubset (h.covers b hb)⟩
      obtain rfl : n = m := Option.some.inj (hn.symm.trans hm)
      exact h.sound.count ▸ (List.getElem?_eq_some_iff.1 hw).1
  · rw [insts_terminate hb]
    exact h.made

/-- A block of a construct is opened. -/
theorem place (h : d.Prepared slots homes base) (hgives : (Lower.place l).Gives d () d') (hn : l.number? = some n)
    (hhome : homes[n]? = some (home, extra)) (hbase : home ⊆ base) : d'.Prepared slots homes (l.known homes) := by
  obtain ⟨hb, rfl⟩ := Lower.gives_place.1 hgives
  have hmade (index : Nat) (hindex : .register index ∈ l.known homes) : .register index ∈ Inst.setBy d.insts := by
    refine h.made index (hbase ?_)
    rw [Label.known_of_number hn hhome] at hindex
    split at hindex <;> simpa using hindex
  refine ⟨⟨h.sound.count, fun k hk m hm => ?_, h.sound.closed, ?_, h.sound.edges⟩, ?_, fun index hindex => ?_⟩
  · simp only [blockLabels, Option.toList_some, map_cons, map_nil, mem_append, mem_singleton] at hk
    rcases hk with hk | rfl
    · exact h.sound.numbers k (mem_append_left _ hk) m hm
    · obtain rfl : n = m := Option.some.inj (hn.symm.trans hm)
      exact h.sound.count ▸ (List.getElem?_eq_some_iff.1 hhome).1
  · rintro _ ⟨⟩
    refine ⟨fun before i after heq => by simp at heq, fun index hindex => ?_⟩
    have hset := hmade index hindex
    rw [insts, hb, Option.elim_none, append_nil, Inst.setBy, flatMap_assoc] at hset
    exact mem_flatMap.1 hset
  · rintro _ ⟨⟩
    exact subset_append_left _ _
  · rw [insts_place hb]
    exact hmade index hindex

end Prepared

end Draft

namespace Conversion

variable (c : Conversion) (v : Operand) (type : MachineTy) (dst : Nat) (slots : Bool)

@[simp]
theorem needs_inst : (c.inst v type dst).needs slots = v.items := by
  cases c <;> simp [inst, Inst.needs, Inst.operands, Operand.items]

@[simp]
theorem sets_inst : (c.inst v type dst).sets = [.register dst] := by
  cases c <;> rfl

end Conversion

namespace BinaryOp

variable (op : BinaryOp) (floating : Bool) (lhs rhs : Operand) (dst : Nat) (slots : Bool)

@[simp]
theorem needs_inst : (op.inst floating lhs rhs dst).needs slots = lhs.items ++ rhs.items := by
  cases op <;> cases floating <;> simp [inst, Inst.needs, Inst.operands]

@[simp]
theorem sets_inst : (op.inst floating lhs rhs dst).sets = [.register dst] := by
  cases op <;> cases floating <;> rfl

end BinaryOp

theorem append_subset_append {α : Type} {l l' first : List α} (h : l ⊆ l') : first ++ l ⊆ first ++ l' :=
  append_subset.2 ⟨subset_append_left _ _, subset_append_of_subset_right _ h⟩

namespace Lower

variable {α β : Type} {slots : Bool} {pre : List Item} {f : α → Lower β}

/-- Whether work that leaves the scopes as they are has what it needs, if what is in `pre` is set and what the use of
    names needs. After it what is in `post` is set, too. -/
structure Supplies (slots : Bool) (pre : List Item) (x : Lower α) (post : α → List Item) : Prop where
  steady : Steady x
  supplies : ∀ {homes : Homes} {base : List Item} {d : Draft} {a : α} {d' : Draft}, x.Gives d a d' →
    pre ⊆ base → d.Sees base → d.Prepared slots homes base →
    ∃ homes', homes <+: homes' ∧ d'.Prepared slots homes' (post a ++ base)

namespace Supplies

variable {x : Lower α} {post : α → List Item}

theorem bind {post' : β → List Item} (hx : Supplies slots pre x post)
    (hf : ∀ a, Supplies slots (post a ++ pre) (f a) post') : Supplies slots pre (x >>= f) post' := by
  refine ⟨hx.steady.bind fun a => (hf a).steady, @fun homes base d b d' hgives hpre hsees hd => ?_⟩
  obtain ⟨a, d1, hfirst, hrest⟩ := gives_bind.1 hgives
  obtain ⟨homes1, hprefix1, hd1⟩ := hx.supplies hfirst hpre hsees hd
  have hsees1 := (hsees.steady hx.steady hfirst).mono (subset_append_right (post a) _)
  obtain ⟨homes2, hprefix2, hd2⟩ := (hf a).supplies hrest (append_subset_append hpre) hsees1 hd1
  exact ⟨homes2, hprefix1.trans hprefix2, hd2.mono (append_subset_append (subset_append_right _ _))⟩

/-- Work that adds no code. -/
theorem of_same (hx : ∀ {d a d'}, x.Gives d a d' →
      d'.labels = d.labels ∧ d'.closed = d.closed ∧ d'.current = d.current ∧ d'.scopes = d.scopes) :
    Supplies slots pre x fun _ => [] := by
  refine ⟨⟨fun h => (hx h).2.2.2⟩, @fun homes base d a d' hgives _ _ hd => ?_⟩
  obtain ⟨hlabels, hclosed, hcurrent, -⟩ := hx hgives
  exact ⟨homes, prefix_rfl, hd.of_eq hlabels hclosed hcurrent⟩

protected theorem pure {a : α} (ha : post a ⊆ pre) : Supplies slots pre (pure a : Lower α) post := by
  refine ⟨.pure a, @fun homes base d b d' hgives hpre _ hd => ?_⟩
  obtain ⟨rfl, rfl⟩ := gives_pure.1 hgives
  exact ⟨homes, prefix_rfl, hd.mono (append_subset.2 ⟨Subset.trans ha hpre, refl _⟩)⟩

theorem mono {post' : α → List Item} (hx : Supplies slots pre x post) (hpost : ∀ a, post' a ⊆ post a) :
    Supplies slots pre x post' := by
  refine ⟨hx.steady, @fun homes base d a d' hgives hpre hsees hd => ?_⟩
  obtain ⟨homes', hprefix, hd'⟩ := hx.supplies hgives hpre hsees hd
  refine ⟨homes', hprefix, hd'.mono (append_subset.2 ⟨?_, subset_append_right _ _⟩)⟩
  exact subset_append_of_subset_left _ (hpost a)

theorem fault (f : Fault) : Supplies slots pre (fault f : Lower α) post :=
  ⟨⟨fun h => absurd h gives_fault⟩, fun h => absurd h gives_fault⟩

theorem formatIndex (f : PrintFormat) : Supplies slots pre (formatIndex f) fun _ => [] :=
  of_same fun h => by obtain ⟨formats, rfl, -⟩ := gives_formatIndex h; exact ⟨rfl, rfl, rfl, rfl⟩

theorem callee (name : String) : Supplies slots pre (callee name) fun _ => [] :=
  of_same fun h => by obtain ⟨-, rfl⟩ := gives_callee.1 h; exact ⟨rfl, rfl, rfl, rfl⟩

theorem isOpen : Supplies slots pre isOpen fun _ => [] :=
  of_same fun h => by obtain ⟨-, rfl⟩ := gives_isOpen.1 h; exact ⟨rfl, rfl, rfl, rfl⟩

theorem lookup (name : String) : Supplies slots pre (lookup name) Binding.items := by
  have hsame {d : Draft} {b : Binding} {d' : Draft} (h : (Lower.lookup name).Gives d b d') := gives_lookup.1 h
  refine ⟨⟨fun h => by rw [(hsame h).2]⟩, @fun homes base d b d' hgives _ hsees hd => ?_⟩
  obtain ⟨hfinds, rfl⟩ := hsame hgives
  exact ⟨homes, prefix_rfl, hd.mono (append_subset.2 ⟨hsees name b hfinds, refl _⟩)⟩

theorem emit (hi : i.needs slots ⊆ pre) : Supplies slots pre (emit i) fun _ => i.sets :=
  ⟨.emit i, fun hgives hpre _ hd => ⟨_, prefix_rfl, hd.emit hgives (Subset.trans hi hpre)⟩⟩

theorem emitValue {type : MachineTy} {inst : Nat → Inst} (hneeds : ∀ n, (inst n).needs slots ⊆ pre)
    (hsets : ∀ n, (inst n).sets = [.register n]) : Supplies slots pre (emitValue type inst) Operand.items := by
  have hregister : Supplies slots pre nextRegister fun _ => [] :=
    of_same fun h => by obtain ⟨-, rfl⟩ := gives_nextRegister.1 h; exact ⟨rfl, rfl, rfl, rfl⟩
  refine hregister.bind fun n => (emit (hneeds n)).bind fun _ => .pure ?_
  rw [hsets]
  exact subset_append_left _ _

/-- A block is closed that goes nowhere. -/
theorem terminate {t : Terminator} (ht : t.targets = []) (hoperands : t.operands.flatMap (·.items) ⊆ pre) :
    Supplies slots pre (terminate t) fun _ => [] := by
  refine ⟨.terminate t, @fun homes base d _ d' hgives hpre _ hd => ⟨homes, prefix_rfl, ?_⟩⟩
  refine hd.terminate hgives (Subset.trans hoperands hpre) fun l hl => ?_
  rw [ht] at hl
  cases hl

section Values

variable {v w : Operand}

theorem load (name : String) : Supplies slots pre (load name) Operand.items := by
  refine (lookup name).bind fun b => ?_
  cases b with
  | slot slot => exact emitValue (fun _ => by cases slots <;> simp [Inst.needs, Binding.items]) fun _ => rfl
  | value => exact .pure (subset_append_left _ _)
  | function => exact .fault _

theorem convert (hv : v.items ⊆ pre) (type : MachineTy) : Supplies slots pre (convert v type) Operand.items := by
  have hinst (c : Conversion) : Supplies slots pre (Lower.emitValue type (c.inst v type)) Operand.items :=
    emitValue (by simpa using hv) (by simp)
  rw [convert.eq_def]
  split
  · exact .pure hv
  · cases v with
    | const => exact .pure (nil_subset _)
    | param | reg => exact hinst _

theorem operate (op : BinaryOp) (type : MachineTy) (hv : v.items ⊆ pre) (hw : w.items ⊆ pre) :
    Supplies slots pre (operate op type v w) Operand.items :=
  emitValue (by simpa using ⟨hv, hw⟩) (by simp)

theorem binary (op : BinaryOp) (hv : v.items ⊆ pre) (hw : w.items ⊆ pre) :
    Supplies slots pre (binary op v w) Operand.items :=
  (convert hv _).bind fun _ => (convert (subset_append_of_subset_right _ hw) _).bind fun _ =>
    operate _ _ (by simp) (by simp)

theorem runtimeFunction : Supplies slots pre (runtimeFunction "printf") fun _ => [] :=
  .pure (nil_subset _)

theorem print (hv : v.items ⊆ pre) : Supplies slots pre (print v) fun _ => [] :=
  (convert hv _).bind fun _ => runtimeFunction.bind fun _ => (formatIndex _).bind fun _ =>
    (emitValue (by simp [Inst.needs, Inst.operands]) fun _ => rfl).bind fun _ => .pure (nil_subset _)

theorem discriminant (enums : EnumTable) (enumName variant : String) :
    Supplies slots pre (discriminant enums enumName variant) Operand.items := by
  rw [Lower.discriminant]
  split
  · exact .pure (nil_subset _)
  · exact .fault _

theorem target (e : Expr Ty) : Supplies slots pre (target e) fun _ => [] := by
  cases e with
  | ident _ name =>
    refine (lookup name).bind fun b => ?_
    cases b with
    | slot slot => exact .pure (nil_subset _)
    | value | function => exact .fault _
  | _ => exact .fault _

theorem call (s : Signature) {args : List Operand} (hargs : args.flatMap (·.items) ⊆ pre) :
    Supplies slots pre (call s args) Operand.items := by
  rw [Lower.call]
  split
  · exact (emit hargs).bind fun _ => .pure (nil_subset _)
  · exact emitValue (fun _ => hargs) fun _ => rfl

theorem equalTest (hv : v.items ⊆ pre) (hw : w.items ⊆ pre) : Supplies slots pre (equalTest v w) Operand.items :=
  (convert hw _).bind fun _ => operate _ _ (subset_append_of_subset_right _ hv) (subset_append_left _ _)

theorem storeResult (hv : v.items ⊆ pre) (slot : Option Slot) :
    Supplies slots pre (storeResult v slot) fun _ => slot.toList.map .slot := by
  cases slot with
  | some => exact (convert hv _).bind fun _ => emit (by simp [Inst.needs, Inst.operands])
  | none => exact .pure (nil_subset _)

theorem loadResult {slot : Option Slot} (hslot : slots = true → slot.toList.map .slot ⊆ pre) :
    Supplies slots pre (loadResult slot) Operand.items := by
  cases slot with
  | some =>
    refine emitValue (fun _ => ?_) fun _ => rfl
    cases slots with
    | true => exact hslot rfl
    | false => exact nil_subset _
  | none => exact .pure (nil_subset _)

end Values

end Supplies

variable {n : Nat} {home : List Item} {extra : List Slot} {x : Lower α} {post : α → List Item}

/-- Whether work at a construct with the given home has what it needs. Where a new block is opened, nothing is left but
    what is set in front of the construct. -/
structure SuppliesIn (slots : Bool) (n : Nat) (home : List Item) (extra : List Slot) (pre : List Item) (x : Lower α)
    (post : α → List Item) : Prop where
  supplies : ∀ {homes : Homes} {base : List Item} {d : Draft} {a : α} {d' : Draft}, x.Gives d a d' →
    homes[n]? = some (home, extra) → home ⊆ base → pre ⊆ base → d.Sees home → d.Prepared slots homes base →
      ∃ homes', homes <+: homes' ∧ d'.Prepared slots homes' (post a ++ home) ∧ d'.Sees home

theorem Supplies.inside (h : Supplies slots (pre ++ home) x post) : SuppliesIn slots n home extra pre x post := by
  refine ⟨@fun homes base d a d' hgives _ hhome hpre hsees hd => ?_⟩
  obtain ⟨homes', hprefix, hd'⟩ := h.supplies hgives (append_subset.2 ⟨hpre, hhome⟩) (hsees.mono hhome) hd
  exact ⟨homes', hprefix, hd'.mono (append_subset_append hhome), hsees.steady h.steady hgives⟩

/-- Work at a construct after work in front of it, whose value is set at all of its blocks. -/
theorem Supplies.construct (hx : Supplies slots pre x post) (extra : Nat → List Slot) {f : Nat → α → Lower β}
    {post' : β → List Item} (hsteady : Steady (do
      let n ← nextLabel
      let a ← x
      f n a)) (hf : ∀ n a home, post a ⊆ home → SuppliesIn slots n home (extra n) [] (f n a) post') :
    Supplies slots pre (do
      let n ← nextLabel
      let a ← x
      f n a) post' := by
  refine ⟨hsteady, @fun homes base d b d' hgives hpre hsees hd => ?_⟩
  obtain ⟨n, d1, hlabel, hwork⟩ := gives_bind.1 hgives
  obtain ⟨rfl, rfl⟩ := gives_nextLabel.1 hlabel
  obtain ⟨a, d1, hfirst, hrest⟩ := gives_bind.1 hwork
  let w := (post a ++ base, extra d.labels)
  have hw : (homes ++ [w])[d.labels]? = some w := by rw [← hd.sound.count, List.getElem?_concat_length]
  obtain ⟨homes1, hprefix1, hd1⟩ := hx.supplies hfirst hpre hsees (hd.nextLabel w)
  have hsees1 : d1.Sees (post a ++ base) := by
    rw [Sees, hx.steady.scopes_eq hfirst]
    exact hsees.mono (subset_append_right _ _)
  obtain ⟨homes2, hprefix2, hd2, -⟩ := (hf d.labels a _ (subset_append_left _ _)).supplies hrest
    (getElem?_mono hprefix1 hw) (refl _) (nil_subset _) hsees1 hd1
  exact ⟨homes2, (prefix_append _ _).trans (hprefix1.trans hprefix2),
    hd2.mono (append_subset_append (subset_append_right _ _))⟩

/-- Work at a construct that has just got its number. -/
theorem Supplies.numbered {f : Nat → Lower α} (hsteady : Steady (nextLabel >>= f))
    (hf : ∀ n home, SuppliesIn slots n home [] [] (f n) post) : Supplies slots pre (nextLabel >>= f) post := by
  have hnothing : Supplies slots pre (pure ()) fun _ => [] := .pure (nil_subset _)
  simpa using hnothing.construct (fun _ => []) (f := fun n _ => f n) (by simpa using hsteady) fun n _ home _ =>
    hf n home

namespace SuppliesIn

theorem bind {post' : β → List Item} (hx : SuppliesIn slots n home extra pre x post)
    (hf : ∀ a, SuppliesIn slots n home extra (post a) (f a) post') : SuppliesIn slots n home extra pre
    (x >>= f) post' := by
  refine ⟨@fun homes base d b d' hgives hw hhome hpre hsees hd => ?_⟩
  obtain ⟨a, d1, hfirst, hrest⟩ := gives_bind.1 hgives
  obtain ⟨homes1, hprefix1, hd1, hsees1⟩ := hx.supplies hfirst hw hhome hpre hsees hd
  obtain ⟨homes2, hprefix2, hd2⟩ := (hf a).supplies hrest (getElem?_mono hprefix1 hw) (subset_append_right _ _)
    (subset_append_left _ _) hsees1 hd1
  exact ⟨homes2, hprefix1.trans hprefix2, hd2⟩

theorem place {l : Label} (hl : l.IsInside n) : SuppliesIn slots n home extra pre (place l) fun _ => [] := by
  refine ⟨@fun homes base d _ d' hgives hw hhome _ hsees hd => ⟨homes, prefix_rfl, ?_, hsees.steady (.place l) hgives⟩⟩
  have hd' := hd.place hgives hl.1 hw hhome
  rwa [hl.known_eq hw] at hd'

/-- The end of a match, where its value is set. -/
theorem placeEnd : SuppliesIn slots n home extra pre (Lower.place (.matchEnd n)) fun _ => extra.map .slot := by
  refine ⟨@fun homes base d _ d' hgives hw hhome _ hsees hd => ⟨homes, prefix_rfl, ?_, hsees.steady (.place _) hgives⟩⟩
  have hd' := hd.place hgives rfl hw hhome
  rwa [Label.known_of_number rfl hw] at hd'

/-- A block is closed that goes to blocks of the construct. -/
theorem terminate {t : Terminator} (ht : ∀ l ∈ t.targets, l.number? = some n ∧
    (l.isMatchEnd = true → extra.map .slot ⊆ pre)) (hoperands : t.operands.flatMap (·.items) ⊆ pre) : SuppliesIn slots n
    home extra pre (terminate t) fun _ => [] := by
  refine ⟨@fun homes base d _ d' hgives hw hhome hpre hsees hd =>
    ⟨homes, prefix_rfl, ?_, hsees.steady (.terminate t) hgives⟩⟩
  refine (hd.terminate hgives (Subset.trans hoperands hpre) fun l hl => ⟨⟨n, _, (ht l hl).1, hw⟩, ?_⟩).mono hhome
  rw [Label.known_of_number (ht l hl).1 hw]
  split
  · next hend => exact append_subset.2 ⟨Subset.trans ((ht l hl).2 hend) hpre, hhome⟩
  · exact hhome

theorem br {k : Label} (hk : k.number? = some n) (hend : k.isMatchEnd = true → extra.map .slot ⊆ pre) :
    SuppliesIn slots n home extra pre (Lower.terminate (.br k)) fun _ => [] :=
  terminate (fun _ hl => mem_singleton.1 hl ▸ ⟨hk, hend⟩) (nil_subset _)

theorem condBr {k k' : Label} {v : Operand} (hk : k.IsInside n) (hk' : k'.IsInside n) (hv : v.items ⊆ pre) :
    SuppliesIn slots n home extra pre (Lower.terminate (.condBr v k k')) fun _ => [] := by
  have hinside {l : Label} (hl : l.IsInside n) : l.number? = some n ∧ (l.isMatchEnd = true → extra.map .slot ⊆ pre) :=
    ⟨hl.1, fun hend => by rw [hl.2] at hend; cases hend⟩
  refine terminate (fun l hl => ?_) (by simpa [Terminator.operands] using hv)
  rcases mem_cons.1 hl with rfl | hl
  · exact hinside hk
  · exact mem_singleton.1 hl ▸ hinside hk'

theorem brIfOpen {k : Label} (hk : k.number? = some n) (hend : k.isMatchEnd = true → extra.map .slot ⊆ pre) :
    SuppliesIn slots n home extra pre (terminateIfOpen (.br k)) fun _ => [] := by
  refine ⟨@fun homes base d _ d' hgives hw hhome hpre hsees hd => ?_⟩
  rcases gives_terminateIfOpen.1 hgives with hgives | ⟨-, rfl⟩
  · exact (br hk hend).supplies hgives hw hhome hpre hsees hd
  · exact ⟨homes, prefix_rfl, hd.mono hhome, hsees⟩

/-- A condition in front of the branches of a construct. -/
theorem condition {x : Lower Operand} {k k' : Label} {f : Lower β} {post' : β → List Item}
    (hx : Supplies slots (pre ++ home) x Operand.items) (hk : k.IsInside n) (hk' : k'.IsInside n)
    (hf : SuppliesIn slots n home extra [] f post') :
    SuppliesIn slots n home extra pre (do
      let cond ← x
      let cond ← convert cond .i1
      Lower.terminate (.condBr cond k k')
      f) post' :=
  hx.inside.bind fun _ => (Supplies.convert (subset_append_left _ _) _).inside.bind fun _ =>
    (condBr hk hk' (refl _)).bind fun _ => hf

theorem branch {x : Lower Unit} {k k' : Label} {f : Lower β} {post' : β → List Item}
    (hx : Supplies slots ([] ++ home) x fun _ => []) (hk : k.IsInside n) (hk' : k'.IsInside n)
    (hf : SuppliesIn slots n home extra [] f post') :
    SuppliesIn slots n home extra pre (do
      Lower.place k
      x
      terminateIfOpen (.br k')
      f) post' :=
  (place hk).bind fun _ => hx.inside.bind fun _ => (brIfOpen hk'.1 (by simp [hk'.2])).bind fun _ => hf

/-- A pattern names the value that it is tested against, if any. -/
theorem patternTest (enums : EnumTable) {v : Operand} (hv : v.items ⊆ home) (p : Pattern) :
    SuppliesIn slots n home extra pre (patternTest enums v p) Operand.items := by
  have hv' {pre : List Item} : v.items ⊆ pre ++ home := subset_append_of_subset_right _ hv
  cases p with
  | wildcard => exact (Supplies.pure (nil_subset _)).inside
  | bind _ name =>
    have hdeclare : SuppliesIn slots n home extra pre (declare name (.value v)) fun _ => [] := by
      refine ⟨@fun homes base d _ d' hgives _ hhome _ hsees hd => ⟨homes, prefix_rfl, ?_⟩⟩
      obtain rfl := gives_declare.1 hgives
      exact ⟨(hd.mono hhome).of_eq rfl rfl rfl, hsees.declare name hv⟩
    exact hdeclare.bind fun _ => (Supplies.pure (nil_subset _)).inside
  | literal => exact (Supplies.equalTest hv' (nil_subset _)).inside
  | variant =>
    exact (Supplies.discriminant _ _ _).inside.bind fun _ => (Supplies.equalTest hv' (subset_append_left _ _)).inside

/-- The slot for the value of a match is kept apart from code. -/
theorem resultSlot {type : Ty} {f : Option Slot → Lower β} {post' : β → List Item}
    (hf : SuppliesIn slots n home extra pre (f (slotFor n type)) post') :
    SuppliesIn slots n home extra pre (resultSlot n type >>= f) post' := by
  refine ⟨@fun homes base d b d' hgives hw hhome hpre hsees hd => ?_⟩
  obtain ⟨slot, d1, hslot, hrest⟩ := gives_bind.1 hgives
  obtain ⟨rfl, rfl⟩ := gives_resultSlot hslot
  exact hf.supplies hrest hw hhome hpre hsees (hd.of_eq rfl rfl rfl)

theorem inScope {x : Lower Unit} {post : Unit → List Item} (hlocal : Local x)
    (hx : SuppliesIn slots n home extra pre x post) : SuppliesIn slots n home extra pre (do
      pushScope
      x
      popScope) fun _ => [] := by
  refine ⟨@fun homes base d _ d' hgives hw hhome hpre hsees hd => ?_⟩
  obtain ⟨_, d1, hpush, hgives⟩ := gives_bind.1 hgives
  obtain rfl := gives_pushScope.1 hpush
  obtain ⟨_, d2, hwork, hpop⟩ := gives_bind.1 hgives
  obtain rfl := gives_popScope.1 hpop
  have hpushed : Prepared slots homes base { d with scopes := d.scopes.push } := hd.of_eq rfl rfl rfl
  obtain ⟨homes', hprefix, hd', -⟩ := hx.supplies hwork hw hhome hpre hsees hpushed
  refine ⟨homes', hprefix, (hd'.mono (subset_append_right _ _)).of_eq rfl rfl rfl, ?_⟩
  rw [Sees, (hlocal.sameOutside (Scopes.push_inner_ne_nil _) hwork).pop_eq_of_push]
  exact hsees

end SuppliesIn

/-- Whether work has what it needs, and may declare variables that are set then. -/
structure Advances (slots : Bool) (x : Lower α) : Prop where
  advances : ∀ {homes : Homes} {base : List Item} {d : Draft} {a : α} {d' : Draft}, x.Gives d a d' →
    d.Sees base → d.Prepared slots homes base →
      ∃ homes' base', homes <+: homes' ∧ base ⊆ base' ∧ d'.Sees base' ∧ d'.Prepared slots homes' base'

theorem Supplies.advances (h : Supplies slots [] x post) : Advances slots x := by
  refine ⟨@fun homes base d a d' hgives hsees hd => ?_⟩
  obtain ⟨homes', hprefix, hd'⟩ := h.supplies hgives (nil_subset _) hsees hd
  exact ⟨homes', base, hprefix, refl _, hsees.steady h.steady hgives, hd'.mono (subset_append_right _ _)⟩

namespace Advances

theorem bind (hx : Advances slots x) (hf : ∀ a, Advances slots (f a)) : Advances slots (x >>= f) := by
  refine ⟨@fun homes base d b d' hgives hsees hd => ?_⟩
  obtain ⟨a, d1, hfirst, hrest⟩ := gives_bind.1 hgives
  obtain ⟨homes1, base1, hprefix1, hbase1, hsees1, hd1⟩ := hx.advances hfirst hsees hd
  obtain ⟨homes2, base2, hprefix2, hbase2, hd2⟩ := (hf a).advances hrest hsees1 hd1
  exact ⟨homes2, base2, hprefix1.trans hprefix2, Subset.trans hbase1 hbase2, hd2⟩

protected theorem pure (a : α) : Advances slots (pure a : Lower α) := by
  have hpure : Supplies slots [] (pure a : Lower α) fun _ => [] := .pure (nil_subset _)
  exact hpure.advances

/-- A variable is written before its name is declared. -/
theorem declareVariable {x : Lower Operand} (hx : Supplies slots [] x Operand.items) (name : String)
    (type : MachineTy) : Advances slots (do
      let init ← x
      declareVariable name type init) := by
  refine ⟨@fun homes base d _ d' hgives hsees hd => ?_⟩
  obtain ⟨init, d1, hinit, hgives⟩ := gives_bind.1 hgives
  obtain ⟨slot, d2, hslot, hgives⟩ := gives_bind.1 hgives
  obtain ⟨_, d3, hstore, hdeclare⟩ := gives_bind.1 hgives
  obtain ⟨homes', hprefix, hd1⟩ := hx.supplies hinit (nil_subset _) hsees hd
  have hscopes : d3.scopes = d.scopes := by
    rw [(Steady.emit _).scopes_eq hstore, (Steady.newSlot _ _).scopes_eq hslot, hx.steady.scopes_eq hinit]
  obtain ⟨rfl, rfl⟩ := gives_newSlot.1 hslot
  obtain rfl := gives_declare.1 hdeclare
  have hd2 : Prepared slots homes' (init.items ++ base)
      { d1 with slots := d1.slots ++ [⟨.named name d1.slots.length, type⟩] } := hd1.of_eq rfl rfl rfl
  have hd3 := hd2.emit hstore (by simp [Inst.needs, Inst.operands])
  refine ⟨homes', _, hprefix, ?_, Sees.declare ?_ name (subset_append_left _ _), hd3.of_eq rfl rfl rfl⟩
  · exact subset_append_of_subset_right _ (subset_append_right _ _)
  · rw [Sees, hscopes]
    exact hsees.mono (subset_append_of_subset_right _ (subset_append_right _ _))

/-- What a scope of its own declares is out of sight after it. -/
theorem inScope {x : Lower Unit} (hx : Advances slots x)
    (hsteady : Steady (do
      pushScope
      x
      popScope)) :
    Supplies slots pre (do
      pushScope
      x
      popScope) fun _ => [] := by
  refine ⟨hsteady, @fun homes base d _ d' hgives _ hsees hd => ?_⟩
  obtain ⟨_, d1, hpush, hgives⟩ := gives_bind.1 hgives
  obtain rfl := gives_pushScope.1 hpush
  obtain ⟨_, d2, hwork, hpop⟩ := gives_bind.1 hgives
  obtain rfl := gives_popScope.1 hpop
  have hpushed : Prepared slots homes base { d with scopes := d.scopes.push } := hd.of_eq rfl rfl rfl
  obtain ⟨homes', base', hprefix, hbase, -, hd'⟩ := hx.advances hwork hsees hpushed
  exact ⟨homes', hprefix, (hd'.mono hbase).of_eq rfl rfl rfl⟩

end Advances

/-- The slot for the value of a match, as far as slots count. -/
def kept (slots : Bool) (slot : Option Slot) : List Slot :=
  if slots then slot.toList else []

/-- Rules for trees, and whether slots count: only where no arm of a match that has a value is a block. -/
structure SlotRules extends TreeRules where
  slots : Bool
  noBlockArm : slots = true → ¬blockArm

section Tree

variable (env : Env) (rules : SlotRules)

mutual

theorem expr_supplies {pre : List Item} : ∀ e : Expr Ty, e.Obeys rules.toTreeRules →
    Supplies rules.slots pre (expr env e) Operand.items
  | .literal _ _, _ => .pure (nil_subset _)
  | .ident _ name, _ => .load name
  | .variant _ _ _, _ => .discriminant _ _ _
  | .binary _ _ lhs rhs, ⟨hlhs, hrhs⟩ =>
    (expr_supplies lhs hlhs).bind fun _ => (expr_supplies rhs hrhs).bind fun _ => .binary _ (by simp) (by simp)
  | .assign _ place rhs, ⟨_, hrhs⟩ =>
    (Supplies.target place).bind fun _ => (expr_supplies rhs hrhs).bind fun _ =>
      (Supplies.convert (by simp) _).bind fun _ => (Supplies.emit (by simp [Inst.needs, Inst.operands])).bind fun _ =>
        .pure (by simp)
  | .call _ function args, ⟨_, hargs⟩ => by
    cases function with
    | ident _ name =>
      rw [expr_call_ident]
      split
      · cases args with
        | nil => exact .fault _
        | cons arg =>
          exact (expr_supplies arg hargs.1).bind fun _ => (Supplies.print (by simp)).bind fun _ => .pure (nil_subset _)
      · exact (Supplies.callee name).bind fun _ => (arguments_supply args hargs name _).bind fun _ =>
          .call _ (by simp)
    | _ =>
      exact .fault _
  | .paren _ inner, hinner => expr_supplies inner hinner
  | .select (.mk span note scrutinee arms), ⟨hscrutinee, harms⟩ =>
    selection_supplies (.mk span note scrutinee arms) note hscrutinee harms fun h hblock =>
      absurd hblock (rules.noBlockArm h)

theorem arguments_supply {pre : List Item} :
    ∀ args : List (Expr Ty), Expr.ObeyAll rules.toTreeRules args → ∀ (name : String) (types : List MachineTy),
      Supplies rules.slots pre (arguments env name types args) fun vs => vs.flatMap (·.items)
  | [], _, _, _ => .pure (nil_subset _)
  | arg :: _, _, _, [] => .fault _
  | arg :: args, ⟨harg, hargs⟩, name, _ :: types =>
    (expr_supplies arg harg).bind fun _ => (Supplies.convert (by simp) _).bind fun _ =>
      (arguments_supply args hargs name types).bind fun _ => .pure (by simp)

/-- The value of a match is set at its end if all of its arms have one. -/
theorem selection_supplies {pre : List Item} {blockArm : Prop} :
    ∀ (m : Match Ty) (type : Ty), m.scrutinee.Obeys rules.toTreeRules → Arm.ObeyAll rules.toTreeRules blockArm m.arms →
      (rules.slots = true → blockArm → type = .void) → Supplies rules.slots pre (selection env type m) Operand.items
  | .mk span note scrutinee arms, type, hscrutinee, harms, htype => by
    have hsteady := selection_steady env (.mk span note scrutinee arms) type
    refine (expr_supplies scrutinee hscrutinee).construct (fun n => kept rules.slots (slotFor n type)) hsteady
      fun n v home hv => .resultSlot ?_
    have hblock (hcount : rules.slots = true) (h : blockArm) : slotFor n type = none := if_pos (.inl (htype hcount h))
    exact (SuppliesIn.br (isInside_nextTest _ _ _).1 (by simp [(isInside_nextTest n 0 arms).2])).bind fun _ =>
      (armList_supplies n hv _ hblock 0 arms harms).bind fun _ => (SuppliesIn.place ⟨rfl, rfl⟩).bind fun _ =>
        (Supplies.terminate rfl (nil_subset _)).inside.bind fun _ => SuppliesIn.placeEnd.bind fun _ =>
          (Supplies.loadResult fun hcount => by simp [kept, hcount]).inside

theorem armList_supplies (n : Nat) {v : Operand} {home : List Item}
    (hv : v.items ⊆ home) (slot : Option Slot) {blockArm : Prop} (hblock : rules.slots = true → blockArm → slot = none)
    {pre : List Item} : ∀ (k : Nat) (arms : List (Arm Ty)), Arm.ObeyAll rules.toTreeRules blockArm arms →
      SuppliesIn rules.slots n home (kept rules.slots slot) pre (armList env n v slot k arms) fun _ => []
  | k, [], _ => (Supplies.pure (nil_subset _)).inside
  | k, arm :: arms, ⟨harm, harms⟩ => by
    have hlocal : Local (do
        place (.matchTest n k)
        let cond ← patternTest env.enums v arm.pattern
        terminate (.condBr cond (.matchArm n k) (nextTest n (k + 1) arms))
        place (.matchArm n k)
        armBody env slot arm
        terminateIfOpen (.br (.matchEnd n))) :=
      (Steady.place _).isLocal.bind fun _ => (Local.patternTest _ _ _).bind fun _ => (Steady.terminate _).isLocal.bind
        fun _ => (Steady.place _).isLocal.bind fun _ => (armBody_steady env slot arm).isLocal.bind fun _ =>
          (Steady.terminateIfOpen _).isLocal
    rw [armList_cons]
    exact (SuppliesIn.inScope hlocal <| (SuppliesIn.place ⟨rfl, rfl⟩).bind fun _ =>
      (SuppliesIn.patternTest _ hv _).bind fun _ =>
      (SuppliesIn.condBr ⟨rfl, rfl⟩ (isInside_nextTest _ _ _) (refl _)).bind fun _ =>
        (SuppliesIn.place ⟨rfl, rfl⟩).bind fun _ => (armBody_supplies slot hblock arm harm).inside.bind fun _ =>
          .brIfOpen rfl fun _ => refl _).bind fun _ =>
      armList_supplies n hv slot hblock (k + 1) arms harms

theorem armBody_supplies (slot : Option Slot) {blockArm : Prop}
    (hblock : rules.slots = true → blockArm → slot = none) {pre : List Item} :
      ∀ arm : Arm Ty, arm.Obeys rules.toTreeRules blockArm →
      Supplies rules.slots pre (armBody env slot arm) fun _ => (kept rules.slots slot).map .slot
  | .block _ _ body, ⟨hallowed, _, hbody⟩ => by
    have hnone : kept rules.slots slot = [] := by
      cases hcount : rules.slots with
      | true => rw [hblock hcount hallowed]; rfl
      | false => rfl
    rw [armBody, hnone]
    exact block_supplies body hbody
  | .value _ _ value, ⟨_, hvalue⟩ => by
    have hstore (v : Operand) : Supplies rules.slots (v.items ++ pre) (storeResult v slot) fun _ =>
        (kept rules.slots slot).map .slot := by
      refine (Supplies.storeResult (subset_append_left _ _) slot).mono fun _ => ?_
      cases rules.slots with
      | true => exact refl _
      | false => exact nil_subset _
    exact (expr_supplies value hvalue).bind hstore

theorem block_supplies {pre : List Item} : ∀ b : Block Ty, b.Obeys rules.toTreeRules →
    Supplies rules.slots pre (block env b) fun _ => []
  | .mk span stmts, hstmts => (stmtList_advances stmts hstmts).inScope (block_steady env (.mk span stmts))

theorem stmtList_advances : ∀ stmts : List (Stmt Ty), Stmt.ObeyAll rules.toTreeRules stmts →
    Advances rules.slots (stmtList env stmts)
  | [], _ => .pure _
  | stmt :: stmts, ⟨hstmt, hstmts⟩ => by
    refine (statement_advances stmt hstmt).bind fun _ => Supplies.isOpen.advances.bind fun isOpen => ?_
    cases isOpen with
    | true => exact stmtList_advances stmts hstmts
    | false => exact .pure _

theorem chain_supplies {pre : List Item} : ∀ c : IfChain Ty, c.Obeys rules.toTreeRules →
    Supplies rules.slots pre (chain env c) fun _ => []
  | .only span condition body, ⟨hcondition, hbody⟩ => by
    refine .numbered (chain_steady env (.only span condition body)) fun n home =>
      .condition (expr_supplies condition hcondition) ⟨rfl, rfl⟩ ⟨rfl, rfl⟩ ?_
    exact .branch (block_supplies body hbody) ⟨rfl, rfl⟩ ⟨rfl, rfl⟩ (.place ⟨rfl, rfl⟩)
  | .orElse span condition body other, ⟨hcondition, hbody, hother⟩ => by
    refine .numbered (chain_steady env (.orElse span condition body other)) fun n home =>
      .condition (expr_supplies condition hcondition) ⟨rfl, rfl⟩ ⟨rfl, rfl⟩ ?_
    exact .branch (block_supplies body hbody) ⟨rfl, rfl⟩ ⟨rfl, rfl⟩
      (.branch (block_supplies other hother) ⟨rfl, rfl⟩ ⟨rfl, rfl⟩ (.place ⟨rfl, rfl⟩))
  | .orIf span condition body next, ⟨hcondition, hbody, hnext⟩ => by
    refine .numbered (chain_steady env (.orIf span condition body next)) fun n home =>
      .condition (expr_supplies condition hcondition) ⟨rfl, rfl⟩ ⟨rfl, rfl⟩ ?_
    exact .branch (block_supplies body hbody) ⟨rfl, rfl⟩ ⟨rfl, rfl⟩
      (.branch (chain_supplies next hnext) ⟨rfl, rfl⟩ ⟨rfl, rfl⟩ (.place ⟨rfl, rfl⟩))

theorem statement_advances : ∀ stmt : Stmt Ty, stmt.Obeys rules.toTreeRules → Advances rules.slots (statement env stmt)
  | .block body, hbody => (block_supplies body hbody).advances
  | .decl _ _ name _ _ init, ⟨_, _, hinit⟩ => .declareVariable (initializer_supplies _ init hinit) name _
  | .cond c, hc => (chain_supplies c hc).advances
  | .loop span condition body, ⟨_, hcondition, hbody⟩ => by
    have hsteady : Steady (statement env (.loop span condition body)) := statement_steady env (by simp)
    exact (Supplies.numbered hsteady fun n home => (SuppliesIn.br rfl (by simp [Label.isMatchEnd])).bind fun _ =>
      (SuppliesIn.place ⟨rfl, rfl⟩).bind fun _ => .condition (expr_supplies condition hcondition) ⟨rfl, rfl⟩ ⟨rfl, rfl⟩
        (.branch (block_supplies body hbody) ⟨rfl, rfl⟩ ⟨rfl, rfl⟩ (.place ⟨rfl, rfl⟩))).advances
  | .select (.mk span note scrutinee arms), ⟨hscrutinee, harms⟩ =>
    (selection_supplies (.mk span note scrutinee arms) .void hscrutinee harms fun _ _ => rfl).advances.bind fun _ =>
      .pure _
  | .ret _ none, _ => (Supplies.terminate rfl (nil_subset _)).advances
  | .ret _ (some value), hvalue =>
    ((expr_supplies value hvalue).bind fun _ => (Supplies.convert (by simp) _).bind fun _ =>
      .terminate rfl (by simp [Terminator.operands])).advances
  | .expr _ value, hvalue => (expr_supplies value hvalue).advances.bind fun _ => .pure _

theorem initializer_supplies (type : MachineTy) {pre : List Item} :
    ∀ init : Option (Expr Ty), Expr.ObeyIfAny rules.toTreeRules init →
    Supplies rules.slots pre (initializer env type init) Operand.items
  | none, _ => .pure (nil_subset _)
  | some value, hvalue => (expr_supplies value hvalue).bind fun _ => .convert (by simp) _

end

end Tree

end Lower

namespace Draft

variable {slots : Bool} {homes : Homes} {d : Draft} {name : String} {result : MachineTy}
    {params : List IrParam} {b : IrBlock}

/-- A finished block is a closed one with slots at its start, or without. -/
theorem exists_split_of_mem_finished (hb : b ∈ d.finished) :
    ∃ (earlier : List IrBlock) (c : IrBlock) (later : List IrBlock) (slots : List Slot),
      d.closed = earlier ++ c :: later ∧ b = { c with insts := slots.map .alloca ++ c.insts } := by
  cases hclosed : d.closed with
  | nil => simp [finished_of_nil hclosed] at hb
  | cons first others =>
    rw [finished_of_cons hclosed] at hb
    rcases mem_cons.1 hb with rfl | hb
    · exact ⟨[], first, others, d.slots, rfl, rfl⟩
    · obtain ⟨earlier, later, rfl⟩ := append_of_mem hb
      exact ⟨first :: earlier, b, later, [], rfl, rfl⟩

/-- Code that stands after slots. -/
theorem eq_append_of_append_eq {slots : List Slot} {insts before after : List Inst}
    (h : slots.map .alloca ++ insts = before ++ i :: after) :
    (∃ slot, i = .alloca slot) ∨ ∃ before', before = slots.map .alloca ++ before' ∧ insts = before' ++ i :: after := by
  rcases append_eq_append_iff.1 h with ⟨before', hbefore, hinsts⟩ | ⟨rest, hslots, hrest⟩
  · exact .inr ⟨before', hbefore, hinsts⟩
  · cases rest with
    | nil =>
      refine .inr ⟨[], ?_, ?_⟩
      · rw [hslots]
        simp
      · simpa using hrest.symm
    | cons =>
      obtain ⟨rfl, -⟩ := cons.inj hrest
      have hmem : i ∈ slots.map Inst.alloca := hslots ▸ mem_append_right _ mem_cons_self
      obtain ⟨slot, -, rfl⟩ := mem_map.1 hmem
      exact .inl ⟨slot, rfl⟩

/-- What an instruction of finished code needs is known where its block starts, or set before. -/
theorem Sound.needs_subset (h : d.Sound slots homes) (hb : b ∈ d.finished) {before after : List Inst}
    (hinsts : b.insts = before ++ i :: after) : i.needs slots ⊆ b.label.known homes ++ Inst.setBy before := by
  obtain ⟨earlier, c, later, slots, hclosed, rfl⟩ := exists_split_of_mem_finished hb
  rcases eq_append_of_append_eq hinsts with ⟨slot, rfl⟩ | ⟨before', rfl, hcode⟩
  · exact nil_subset _
  · rw [Inst.setBy_allocas]
    exact (h.closed earlier c later hclosed).1.supplied before' i after hcode

/-- What is known at a finished block has been set on every way to it. -/
theorem Sound.exists_passed (h : d.Sound slots homes) {l : Label} {passed : List Label}
    (hpath : IrFunction.Path ⟨name, result, params, d.finished⟩ (l :: passed)) {x : Item} (hx : x ∈ l.known homes) :
    ∃ c ∈ d.finished, c.label ∈ passed ∧ x ∈ Inst.setBy c.insts := by
  refine IrFunction.exists_passed (Label.known homes) rfl (fun b hb t ht => ?_) hpath l passed rfl x hx
  obtain ⟨earlier, c, later, slots, hclosed, rfl⟩ := exists_split_of_mem_finished hb
  rw [Inst.setBy_allocas]
  exact (h.edges c (hclosed ▸ mem_append_right _ mem_cons_self) t ht).2

end Draft

namespace Lower

variable {enums : EnumTable} {f : FuncDef Ty} {s : Signature} {d d1 d2 : Draft}

/-- A parameter is found as its value. -/
theorem finds_declareParameters {t : Scopes Binding} {params : List (String × IrParam)} {name : String} {b : Binding}
    (h : (declareParameters t params).Finds name b) :
    t.Finds name b ∨ ∃ q ∈ params, b = .value (.param q.2.name q.2.type) := by
  induction params generalizing t with
  | nil => exact .inl h
  | cons q _ ih =>
    rcases ih h with hfinds | ⟨r, hr, rfl⟩
    · rw [Scopes.finds_declare] at hfinds
      split at hfinds
      · exact .inr ⟨q, mem_cons_self, hfinds⟩
      · exact .inl hfinds
    · exact .inr ⟨r, mem_cons_of_mem _ hr, rfl⟩

/-- At the start of a function nothing is set, and the use of names needs nothing. -/
theorem start_prepared (slots : Bool) (hmodule : IsModule d.scopes) (params : List (String × IrParam)) :
    (start d params).Prepared slots (replicate d.labels ([], [])) [] ∧ (start d params).Sees [] := by
  have hentry : Inst.Sound slots [] [] [] :=
    ⟨fun before i after heq => by simp at heq, fun index hindex => absurd hindex not_mem_nil⟩
  refine ⟨⟨⟨by simp [start], by simp [start, blockLabels, Label.number?], by simp [start], ?_, by simp [start]⟩,
    fun _ _ => nil_subset _, fun index hindex => absurd hindex not_mem_nil⟩, fun name b hfinds => ?_⟩
  · rintro _ ⟨⟩
    exact hentry
  · rcases finds_declareParameters hfinds with hfinds | ⟨q, -, rfl⟩
    · obtain ⟨s, rfl⟩ := hmodule.functions_only name _ hfinds
      exact nil_subset _
    · exact nil_subset _

/-- All code of a function has what it needs. -/
theorem body_sound {rules : TreeRules} {slots : Bool} (hslots : slots = true → ¬rules.blockArm)
    (hbody : f.body.Obeys rules) (hmodule : IsModule d.scopes) {params : List (String × IrParam)}
    (hblock : (block ⟨enums, s.result⟩ f.body).Gives (start d params) () d1)
    (hclose : (terminateIfOpen (if s.result = .void then .retVoid else .unreachable)).Gives d1 () d2) :
    ∃ homes, d2.Sound slots homes := by
  obtain ⟨hstart, hsees⟩ := start_prepared slots hmodule params
  obtain ⟨homes, -, h1⟩ :=
    (block_supplies ⟨enums, s.result⟩ ⟨rules, slots, hslots⟩ f.body hbody).supplies hblock (nil_subset _) hsees hstart
  rcases gives_terminateIfOpen.1 hclose with hclose | ⟨-, rfl⟩
  · refine ⟨homes, (h1.terminate hclose ?_ ?_).sound⟩
    · split <;> exact nil_subset _
    · split <;> exact fun _ ht => absurd ht not_mem_nil
  · exact ⟨homes, h1.sound⟩

end Lower

end LocLang
