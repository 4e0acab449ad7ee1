import LocLang.Lowering
import LocLang.Proofs.Lowering.Steps

namespace LocLang

open Draft List Option

/-- A change to the code of a function. -/
inductive Edit where
  | place (label : Label)
  | append (label : Label) (inst : Inst)
  | close (label : Label) (term : Terminator)
  | allocate (slot : Slot)
deriving DecidableEq, Repr

namespace Edit

def label? : Edit → Option Label
  | place label | append label _ | close label _ => some label
  | allocate _ => none

def placed? : Edit → Option Label
  | place label => some label
  | _ => none

/-- The instruction that a block gets. -/
def appended? (label : Label) : Edit → Option Inst
  | append l inst => if l = label then some inst else none
  | _ => none

def closed? (label : Label) : Edit → Option Terminator
  | close l term => if l = label then some term else none
  | _ => none

def allocated? : Edit → Option Slot
  | allocate slot => some slot
  | _ => none

section

variable (label : Label) (inst : Inst) (term : Terminator) (slot : Slot)

@[simp]
theorem appended?_append : (append label inst).appended? label = some inst :=
  if_pos rfl

@[simp]
theorem closed?_close : (close label term).closed? label = some term :=
  if_pos rfl

@[simp]
theorem appended?_close (l : Label) : (close label term).appended? l = none := rfl

@[simp]
theorem closed?_append (l : Label) : (append label inst).closed? l = none := rfl

@[simp]
theorem appended?_allocate (l : Label) : (allocate slot).appended? l = none := rfl

@[simp]
theorem closed?_allocate (l : Label) : (allocate slot).closed? l = none := rfl

end

/-- What is done to other blocks adds nothing to a block. -/
theorem appended?_eq_none {e : Edit} {label : Label} (h : e.label? ≠ some label) : e.appended? label = none := by
  cases e with
  | append => exact if_neg fun heq => h (congrArg some heq)
  | place | close | allocate => rfl

theorem closed?_eq_none {e : Edit} {label : Label} (h : e.label? ≠ some label) : e.closed? label = none := by
  cases e with
  | close => exact if_neg fun heq => h (congrArg some heq)
  | place | append | allocate => rfl

/-- What a change makes of the instructions of the entry. Every function starts with none, and with no slots. -/
def entry (e : EntryInsts) : Edit → EntryInsts
  | place .entry => {}
  | append .entry inst => { e with insts := e.insts ++ [inst] }
  | allocate slot => e.allocate slot
  | _ => e

/-- The instructions of the entry after the changes, with each slot put in when it was made. -/
def entryInsts (edits : List Edit) : EntryInsts :=
  edits.foldl entry {}

/-- Whether that is the slots and then all other instructions. -/
def Splices (edits : List Edit) : Prop :=
  entryInsts edits = ⟨(edits.filterMap (·.allocated?)).map .alloca ++ edits.filterMap (·.appended? .entry),
    (edits.filterMap (·.allocated?)).length⟩

/-- Within a function no change breaks that, since a slot is put in behind as many as there are. -/
theorem Splices.append {edits : List Edit} (h : Splices edits) {e : Edit} (hplace : e ≠ .place .entry) :
    Splices (edits ++ [e]) := by
  rw [Splices, entryInsts] at h
  simp only [Splices, entryInsts, foldl_append, foldl_cons, foldl_nil, h, filterMap_append]
  cases e with
  | place label =>
    have hlabel : label ≠ .entry := fun heq => hplace (heq ▸ rfl)
    simp [entry, allocated?, appended?]
  | append label =>
    by_cases hlabel : label = .entry
    · subst hlabel
      simp [entry, allocated?, appended?]
    · simp [entry, allocated?, appended?, hlabel]
  | close => simp [entry, allocated?]
  | allocate => simp [entry, allocated?, EntryInsts.allocate]

/-- Whether nothing is done to a block after it is closed. -/
def Final (edits : List Edit) : Prop :=
  edits.Pairwise fun e e' => ∀ label term, e = .close label term → e'.label? ≠ some label

end Edit

/-- Whether the code of a function is what the changes make of it: the blocks stand in the order in which they are
    placed, each with the instructions and the one end that it gets, and nothing is done to it after its end. Only the
    slots stand at the start of the entry, which is what putting in each of them when it is made comes to. -/
structure IrFunction.WrittenBy (edits : List Edit) (f : IrFunction) : Prop where
  labels : f.blocks.map (·.label) = edits.filterMap (·.placed?)
  insts : ∀ b ∈ f.blocks, b.insts = (if b.label = .entry then (edits.filterMap (·.allocated?)).map .alloca else []) ++
    edits.filterMap (·.appended? b.label)
  spliced : ∀ b ∈ f.blocks, b.label = .entry → b.insts = (Edit.entryInsts edits).insts
  terms : ∀ b ∈ f.blocks, edits.filterMap (·.closed? b.label) = [b.term]
  final : Edit.Final edits

namespace Lower

/-- The changes to code that work makes, one by one. All but the four kinds of changes is reading a draft, counting
    and declaring names. -/
inductive Writes : {α : Type} → Lower α → Draft → List Edit → α → Draft → Prop where
  | pure {α : Type} (a : α) (d : Draft) : Writes (pure a) d [] a d
  | bind {α β : Type} {x : Lower α} {f : α → Lower β} {d d' d'' : Draft} {edits edits' : List Edit} {a : α} {b : β}
      (first : Writes x d edits a d') (rest : Writes (f a) d' edits' b d'') :
      Writes (x >>= f) d (edits ++ edits') b d''
  | get (d : Draft) : Writes get d [] d d
  | nextLabel (d : Draft) : Writes nextLabel d [] d.labels { d with labels := d.labels + 1 }
  | nextRegister (d : Draft) : Writes nextRegister d [] d.registers { d with registers := d.registers + 1 }
  | formatIndex {f : PrintFormat} {d d' : Draft} {n : Nat} (gives : (formatIndex f).Gives d n d') :
      Writes (formatIndex f) d [] n d'
  | scopes (change : Scopes Binding → Scopes Binding) (d : Draft) :
      Writes (modify fun d => { d with scopes := change d.scopes }) d [] () { d with scopes := change d.scopes }
  | begin (d : Draft) :
      Writes begin d [.place .entry] ()
        { d with registers := 0, slots := [], closed := [], current := some { label := .entry } }
  | newSlot {name : Nat → SlotName} {type : MachineTy} {d d' : Draft} {slot : Slot}
      (gives : (newSlot name type).Gives d slot d') : Writes (newSlot name type) d [.allocate slot] slot d'
  | place {label : Label} {d d' : Draft} (gives : (place label).Gives d () d') :
      Writes (place label) d [.place label] () d'
  | emit {i : Inst} {d d' : Draft} {b : OpenBlock} (isOpen : d.current = some b) (gives : (emit i).Gives d () d') :
      Writes (emit i) d [.append b.label i] () d'
  | terminate {t : Terminator} {d d' : Draft} {b : OpenBlock} (isOpen : d.current = some b)
      (gives : (terminate t).Gives d () d') : Writes (terminate t) d [.close b.label t] () d'

end Lower

namespace Edit

/-- The block is still open, so it can be changed. -/
theorem Final.append {edits : List Edit} (h : Final edits) {e : Edit}
    (hopen : ∀ label, e.label? = some label → edits.filterMap (·.closed? label) = []) : Final (edits ++ [e]) := by
  refine pairwise_append.2 ⟨h, pairwise_singleton _ _, ?_⟩
  rintro _ hmem e' he' label term rfl hlabel
  rw [mem_singleton.1 he'] at hlabel
  have hterm : term ∈ edits.filterMap (·.closed? label) := mem_filterMap.2 ⟨_, hmem, if_pos rfl⟩
  rw [hopen label hlabel] at hterm
  cases hterm

end Edit

namespace Draft

def blockLabels (d : Draft) : List Label :=
  d.closed.map (·.label) ++ d.current.toList.map (·.label)

/-- Whether the code so far is what the changes make of it. -/
structure WrittenBy (edits : List Edit) (d : Draft) : Prop where
  labels : d.blockLabels = edits.filterMap (·.placed?)
  slots : d.slots = edits.filterMap (·.allocated?)
  closed : ∀ b ∈ d.closed, edits.filterMap (·.appended? b.label) = b.insts ∧
    edits.filterMap (·.closed? b.label) = [b.term]
  current : ∀ b ∈ d.current, edits.filterMap (·.appended? b.label) = b.insts ∧
    edits.filterMap (·.closed? b.label) = []
  others : ∀ label ∉ d.blockLabels, ∀ e ∈ edits, e.label? ≠ some label
  splices : Edit.Splices edits
  final : Edit.Final edits

namespace WrittenBy

variable {d : Draft} {edits : List Edit} {b : OpenBlock}

/-- A change to the open block is none to those that are closed. -/
theorem closed_append (h : d.WrittenBy edits) {e : Edit} (hother : ∀ c ∈ d.closed, e.label? ≠ some c.label) :
    ∀ c ∈ d.closed, (edits ++ [e]).filterMap (·.appended? c.label) = c.insts ∧
      (edits ++ [e]).filterMap (·.closed? c.label) = [c.term] := by
  intro c hc
  simp [filterMap_append, Edit.appended?_eq_none (hother c hc), Edit.closed?_eq_none (hother c hc), h.closed c hc]

theorem label_ne (hnodup : d.blockLabels.Nodup) (hb : d.current = some b) {c : IrBlock} (hc : c ∈ d.closed) :
    b.label ≠ c.label := by
  rw [blockLabels, hb, nodup_append] at hnodup
  exact fun heq => hnodup.2.2 c.label (mem_map_of_mem hc) b.label (by simp) heq.symm

theorem append (h : d.WrittenBy edits) (hnodup : d.blockLabels.Nodup) (hb : d.current = some b) (i : Inst) :
    WrittenBy (edits ++ [.append b.label i]) { d with current := some { b with insts := b.insts ++ [i] } } where
  labels := by
    simpa [blockLabels, hb, Edit.placed?] using h.labels
  slots := by
    simpa [Edit.allocated?] using h.slots
  closed := h.closed_append (e := .append b.label i) fun c hc heq => label_ne hnodup hb hc (some.inj heq)
  current c hc := by
    cases hc
    obtain ⟨happended, hclosed⟩ := h.current b hb
    simp only [filterMap_append, happended, hclosed]
    simp
  others label hlabel := by
    have hlabel : label ∉ d.blockLabels := by simpa [blockLabels, hb] using hlabel
    exact forall_mem_append.2 ⟨h.others label hlabel, forall_mem_singleton.2 fun heq =>
      hlabel (by simp [blockLabels, hb, ← some.inj heq])⟩
  splices := h.splices.append (by simp)
  final := h.final.append fun label hlabel => by
    obtain rfl : b.label = label := some.inj hlabel
    exact (h.current b hb).2

theorem close (h : d.WrittenBy edits) (hnodup : d.blockLabels.Nodup) (hb : d.current = some b) (t : Terminator) :
    WrittenBy (edits ++ [.close b.label t]) { d with closed := d.closed ++ [b.close t], current := none } where
  labels := by
    simpa [blockLabels, hb, Edit.placed?, OpenBlock.close] using h.labels
  slots := by
    simpa [Edit.allocated?] using h.slots
  closed c hc := by
    rcases mem_append.1 hc with hc | hc
    · exact h.closed_append (e := .close b.label t) (fun c hc heq => label_ne hnodup hb hc (some.inj heq)) c hc
    · rw [mem_singleton.1 hc]
      obtain ⟨happended, hclosed⟩ := h.current b hb
      simp only [OpenBlock.close, filterMap_append, happended, hclosed]
      simp
  current c hc := by cases hc
  others label hlabel := by
    have hlabel : label ∉ d.blockLabels := by simpa [blockLabels, hb, OpenBlock.close] using hlabel
    exact forall_mem_append.2 ⟨h.others label hlabel, forall_mem_singleton.2 fun heq =>
      hlabel (by simp [blockLabels, hb, ← some.inj heq])⟩
  splices := h.splices.append (by simp)
  final := h.final.append fun label hlabel => by
    obtain rfl : b.label = label := some.inj hlabel
    exact (h.current b hb).2

theorem place (h : d.WrittenBy edits) (hb : d.current = none) {label : Label} (hnew : label ∉ d.blockLabels)
    (hentry : label ≠ .entry) :
    WrittenBy (edits ++ [.place label]) { d with current := some { label } } := by
  have hnone (e : Edit) (he : e ∈ edits) : e.label? ≠ some label := h.others label hnew e he
  refine ⟨?_, ?_, ?_, ?_, ?_, h.splices.append (by simpa using hentry), ?_⟩
  · simpa [blockLabels, hb, Edit.placed?] using h.labels
  · simpa [Edit.allocated?] using h.slots
  · refine h.closed_append fun c hc heq => hnew ?_
    rw [some.inj heq]
    exact mem_append_left _ (mem_map_of_mem hc)
  · rintro _ ⟨⟩
    simp only [filterMap_append, filterMap_eq_nil_iff.2 fun e he => Edit.appended?_eq_none (hnone e he),
      filterMap_eq_nil_iff.2 fun e he => Edit.closed?_eq_none (hnone e he)]
    exact ⟨rfl, rfl⟩
  · intro other hother
    simp only [blockLabels, toList_some, map_cons, map_nil, mem_append, mem_singleton, not_or] at hother
    exact forall_mem_append.2 ⟨h.others other (by simpa [blockLabels, hb] using hother.1),
      forall_mem_singleton.2 fun heq => hother.2 (some.inj heq).symm⟩
  · refine h.final.append fun l hl => ?_
    obtain rfl : label = l := some.inj hl
    exact filterMap_eq_nil_iff.2 fun e he => Edit.closed?_eq_none (hnone e he)

theorem allocate (h : d.WrittenBy edits) (slot : Slot) :
    WrittenBy (edits ++ [.allocate slot]) { d with slots := d.slots ++ [slot] } where
  labels := by
    simpa [blockLabels, Edit.placed?] using h.labels
  slots := by
    simpa [Edit.allocated?] using h.slots
  closed := h.closed_append fun _ _ => nofun
  current c hc := by
    obtain ⟨happended, hclosed⟩ := h.current c hc
    simp only [filterMap_append, happended, hclosed]
    simp
  others label hlabel := forall_mem_append.2 ⟨h.others label hlabel, forall_mem_singleton.2 nofun⟩
  splices := h.splices.append (by simp)
  final := h.final.append fun label hlabel => by cases hlabel

/-- What is not code can change. -/
theorem of_eq {d' : Draft} (h : d.WrittenBy edits) (hslots : d'.slots = d.slots) (hclosed : d'.closed = d.closed)
    (hcurrent : d'.current = d.current) : d'.WrittenBy edits := by
  have hlabels : d'.blockLabels = d.blockLabels := by rw [blockLabels, blockLabels, hclosed, hcurrent]
  exact ⟨hlabels ▸ h.labels, hslots ▸ h.slots, hclosed ▸ h.closed, hcurrent ▸ h.current, hlabels ▸ h.others,
    h.splices, h.final⟩

end WrittenBy

end Draft

namespace Lower

variable {α : Type} {x : Lower α} {d d' : Draft} {edits : List Edit} {a : α}

/-- Work inside of a function places its blocks after those that are there. -/
theorem Writes.blockLabels_eq (h : x.Writes d edits a d') (hentry : .place .entry ∉ edits) :
    d'.blockLabels = d.blockLabels ++ edits.filterMap (·.placed?) := by
  induction h with
  | pure => simp
  | bind _ _ ih ih' =>
    rw [mem_append, not_or] at hentry
    rw [ih' hentry.2, ih hentry.1, filterMap_append, append_assoc]
  | get => simp
  | nextLabel | nextRegister => simp [blockLabels]
  | formatIndex gives =>
    obtain ⟨formats, rfl, -⟩ := gives_formatIndex gives
    simp [blockLabels]
  | scopes => simp [blockLabels]
  | begin => exact absurd (mem_singleton.2 rfl) hentry
  | newSlot gives =>
    obtain ⟨rfl, rfl⟩ := gives_newSlot.1 gives
    simp [blockLabels, Edit.placed?]
  | place gives =>
    obtain ⟨hb, rfl⟩ := gives_place.1 gives
    simp [blockLabels, Edit.placed?, hb]
  | emit _ gives =>
    obtain ⟨b, hb, rfl⟩ := gives_emit.1 gives
    simp [blockLabels, Edit.placed?, hb]
  | terminate _ gives =>
    obtain ⟨b, hb, rfl⟩ := gives_terminate.1 gives
    simp [blockLabels, Edit.placed?, hb, OpenBlock.close]

/-- Work inside of a function makes of the code what its changes make of it, if no two blocks get the same label. -/
theorem Writes.writtenBy (h : x.Writes d edits a d') (hentry : .place .entry ∉ edits) (hnodup : d'.blockLabels.Nodup)
    {before : List Edit} (hbefore : d.WrittenBy before) : d'.WrittenBy (before ++ edits) := by
  induction h generalizing before with
  | pure => rwa [append_nil]
  | bind _ rest ih ih' =>
    rw [mem_append, not_or] at hentry
    rw [← append_assoc]
    refine ih' hentry.2 hnodup (ih hentry.1 ?_ hbefore)
    rw [rest.blockLabels_eq hentry.2] at hnodup
    exact (nodup_append.1 hnodup).1
  | get => rwa [append_nil]
  | nextLabel d | nextRegister d | scopes change d => exact (append_nil before).symm ▸ hbefore.of_eq rfl rfl rfl
  | formatIndex gives =>
    obtain ⟨formats, rfl, -⟩ := gives_formatIndex gives
    exact (append_nil before).symm ▸ hbefore.of_eq rfl rfl rfl
  | begin => exact absurd (mem_singleton.2 rfl) hentry
  | newSlot gives =>
    obtain ⟨rfl, rfl⟩ := gives_newSlot.1 gives
    exact hbefore.allocate _
  | place gives =>
    obtain ⟨hb, rfl⟩ := gives_place.1 gives
    refine hbefore.place hb ?_ fun hlabel => hentry (hlabel ▸ mem_singleton.2 rfl)
    simp only [blockLabels, toList_some, map_cons, map_nil, nodup_append] at hnodup
    simp only [blockLabels, hb, toList_none, map_nil, append_nil]
    exact fun hmem => hnodup.2.2 _ hmem _ (mem_singleton.2 rfl) rfl
  | emit isOpen gives =>
    obtain ⟨b, hb, rfl⟩ := gives_emit.1 gives
    obtain rfl : _ = b := some.inj (isOpen.symm.trans hb)
    exact hbefore.append (by simpa [blockLabels, hb] using hnodup) hb _
  | terminate isOpen gives =>
    obtain ⟨b, hb, rfl⟩ := gives_terminate.1 gives
    obtain rfl : _ = b := some.inj (isOpen.symm.trans hb)
    exact hbefore.close (by simpa [blockLabels, hb, OpenBlock.close] using hnodup) hb _

end Lower

/-- A finished draft is written by the changes that made it. -/
theorem Draft.WrittenBy.finished {d : Draft} {edits : List Edit} (h : d.WrittenBy edits) (hcurrent : d.current = none)
    (hnodup : d.blockLabels.Nodup) (hfirst : d.blockLabels.head? = some .entry) (name : String) (result : MachineTy)
    (params : List IrParam) : IrFunction.WrittenBy edits ⟨name, result, params, d.finished⟩ := by
  have hlabels : d.blockLabels = d.closed.map (·.label) := by simp [blockLabels, hcurrent]
  rw [hlabels] at hfirst hnodup
  cases hclosed : d.closed with
  | nil =>
    rw [hclosed] at hfirst
    cases hfirst
  | cons first others =>
    rw [hclosed] at hfirst hnodup
    obtain hentry : first.label = .entry := some.inj hfirst
    have hother (b : IrBlock) (hb : b ∈ others) : b.label ≠ .entry := by
      rw [map_cons, nodup_cons, hentry] at hnodup
      exact fun heq => hnodup.1 (heq ▸ mem_map_of_mem hb)
    have hmem := h.closed
    rw [hclosed] at hmem
    rw [finished_of_cons hclosed]
    refine ⟨?_, ?_, ?_, ?_, h.final⟩
    · rw [← h.labels, hlabels, hclosed]
      rfl
    · intro b hb
      rcases mem_cons.1 hb with rfl | hb
      · rw [if_pos hentry, (hmem first mem_cons_self).1, h.slots]
      · rw [if_neg (hother b hb), (hmem b (mem_cons_of_mem _ hb)).1]
        rfl
    · intro b hb hlabel
      rcases mem_cons.1 hb with rfl | hb
      · rw [h.splices, ← h.slots, ← (hmem first mem_cons_self).1, hentry]
      · exact absurd hlabel (hother b hb)
    · intro b hb
      rcases mem_cons.1 hb with rfl | hb
      · exact (hmem first mem_cons_self).2
      · exact (hmem b (mem_cons_of_mem _ hb)).2

end LocLang
