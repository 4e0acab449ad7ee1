import LocLang.Proofs.Lowering.Built
import LocLang.Proofs.Lowering.Edits

namespace LocLang

namespace Draft

variable {S : Lower.Scheme} {c : Bool} {own own' : List Mark} {edits edits' : List Edit} {d d' d'' : Draft}

/-- The course from one draft to another: what is changed in the code, and what that uses the numbers of the constructs
    around it for. -/
inductive Course (S : Lower.Scheme) : (declares : Bool) → List Mark → List Edit → Draft → Draft → Prop where
  | refl {c : Bool} (d : Draft) : Course S c [] [] d d
  | trans {c : Bool} {own own' : List Mark} {edits edits' : List Edit} {d d' d'' : Draft}
      (first : Course S c own edits d d') (rest : Course S c own' edits' d' d'') :
      Course S c (own ++ own') (edits ++ edits') d d''
  /-- A way that is not taken. -/
  | skip {c : Bool} (label : Label) (d : Draft) : Course S c [.jump label] [] d d
  | register {c : Bool} (d : Draft) : Course S c [] [] d { d with registers := d.registers + 1 }
  | formats {c : Bool} {d : Draft} {formats : List PrintFormat} (more : d.formats <+: formats) :
      Course S c [] [] d { d with formats }
  | declare (d : Draft) (name : String) {b : Binding} (slot : ∀ s, b = .slot s → S.slot s) :
      Course S true [] [] d { d with scopes := d.scopes.declare name b }
  | append {c : Bool} {own : List Mark} {d : Draft} {b : OpenBlock} {i : Inst} (isOpen : d.current = some b)
      (code : i.slot? = none) (address : own = i.mark?.toList ∨ own = [] ∧ ∀ s ∈ i.address?, S.slot s) :
      Course S c own [.append b.label i] d { d with current := some { b with insts := b.insts ++ [i] } }
  | variable {c : Bool} (d : Draft) {name : String} (hname : S.rules.name name) (type : MachineTy) :
      Course S c [] [.allocate ⟨.named name d.slots.length, type⟩] d
        { d with slots := d.slots ++ [⟨.named name d.slots.length, type⟩] }
  | result {c : Bool} (d : Draft) (n : Nat) (type : MachineTy) :
      Course S c [.allocate n] [.allocate ⟨.result n, type⟩] d { d with slots := d.slots ++ [⟨.result n, type⟩] }
  | close {c : Bool} {d : Draft} {b : OpenBlock} (isOpen : d.current = some b) {t : Terminator}
      (reached : t ≠ .unreachable) :
      Course S c (t.targets.map .jump) [.close b.label t] d
        { d with closed := d.closed ++ [b.close t], current := none }
  | place {c : Bool} {d : Draft} (isClosed : d.current = none) {label : Label} (inner : .entry ≠ label) :
      Course S c [.place label] [.place label] d { d with current := some { label } }
  | fail {c : Bool} {d : Draft} (isClosed : d.current = none) (n : Nat) :
      Course S c [.place (.matchFail n)] [.place (.matchFail n), .close (.matchFail n) .unreachable] d
        { d with closed := d.closed ++ [⟨.matchFail n, [], .unreachable⟩], current := none }
  | inScope {c : Bool} {own : List Mark} {edits : List Edit} {d d' : Draft}
      (inside : Course S true own edits { d with scopes := d.scopes.push } d') :
      Course S c own edits d { d' with scopes := d'.scopes.pop }
  | numbered {c : Bool} {edits : List Edit} {d d' : Draft} (k : Construct)
      (inside : Course S c (k.marks d.labels) edits { d with labels := d.labels + 1 } d')
      (allowed : k.Allowed S.rules) : Course S c [] edits d d'

/-- Whether names refer to such slots only as the scheme allows. -/
def Binds (S : Lower.Scheme) (d : Draft) : Prop :=
  ∀ name s, d.scopes.Finds name (.slot s) → S.slot s

namespace Course

/-- Nothing is declared outside of the innermost scope, and in it only where that is known to be open. -/
theorem scopes (h : Course S c own edits d d') :
    (c = false → d'.scopes = d.scopes) ∧ (d.scopes.inner ≠ [] → d.scopes.SameOutside d'.scopes) := by
  have hsame (d : Draft) (c : Bool) : (c = false → d.scopes = d.scopes) ∧
      (d.scopes.inner ≠ [] → d.scopes.SameOutside d.scopes) := ⟨fun _ => rfl, .refl⟩
  induction h with
  | trans _ _ ih ih' =>
    refine ⟨fun hc => (ih'.1 hc).trans (ih.1 hc), fun hopen => ?_⟩
    have hfirst := ih.2 hopen
    exact hfirst.trans (ih'.2 hfirst.open_right)
  | declare _ name => exact ⟨nofun, fun hopen => Scopes.sameOutside_declare hopen name _⟩
  | @inScope _ _ _ d d' _ ih =>
    have hpop : d'.scopes.pop = d.scopes := (ih.2 (Scopes.push_inner_ne_nil _)).pop_eq_of_push
    exact ⟨fun _ => hpop, fun hopen => hpop.symm ▸ .refl hopen⟩
  | numbered _ _ _ ih => exact ih
  | _ => exact hsame _ _

theorem binds (h : Course S c own edits d d') (hd : d.Binds S) : d'.Binds S := by
  induction h with
  | trans _ _ ih ih' => exact ih' (ih hd)
  | declare _ _ slot =>
    intro other s hfinds
    rw [Scopes.finds_declare] at hfinds
    split at hfinds
    · exact slot s hfinds.symm
    · exact hd other s hfinds
  | inScope inside =>
    have hpop := (inside.scopes.2 (Scopes.push_inner_ne_nil _)).pop_eq_of_push
    intro name s hfinds
    exact hd name s (hpop ▸ hfinds)
  | numbered _ _ _ ih => exact ih hd
  | _ => exact hd

/-- The entry is not placed again. -/
theorem entry_not_mem (h : Course S c own edits d d') : .place .entry ∉ edits := by
  induction h with
  | trans _ _ ih ih' => exact fun hmem => (List.mem_append.1 hmem).elim ih ih'
  | place _ inner => simpa using inner
  | inScope _ ih => exact ih
  | numbered _ _ _ ih => exact ih
  | _ => simp

end Course

end Draft

namespace Lower

variable {α : Type} {S : Scheme} {c : Bool} {marks : List Mark} {x : Lower α} {d d' : Draft} {a : α}

theorem writes_lookup {name : String} {b : Binding} (h : d.scopes.Finds name b) : (lookup name).Writes d [] b d := by
  obtain ⟨entry, hresolve, rfl⟩ := h
  refine .bind (.get d) ?_
  rw [hresolve]
  exact .pure _ _

/-- Work that is built of operations on a draft takes its course, by changes to the code. -/
theorem Built.course (h : Built S c marks x) (hx : x.Gives d a d') (hd : d.Binds S) :
    ∃ edits, x.Writes d edits a d' ∧ d.Course S c marks edits d' := by
  induction h generalizing d d' with
  | pure =>
    obtain ⟨rfl, rfl⟩ := gives_pure.1 hx
    exact ⟨[], .pure _ _, .refl _⟩
  | fault => exact absurd hx gives_fault
  | bind _ _ ih ih' =>
    obtain ⟨b, d1, hfirst, hrest⟩ := gives_bind.1 hx
    obtain ⟨edits, hwrites, hcourse⟩ := ih hfirst hd
    obtain ⟨edits', hwrites', hcourse'⟩ := ih' hfirst hrest (hcourse.binds hd)
    exact ⟨edits ++ edits', .bind hwrites hwrites', .trans hcourse hcourse'⟩
  | nextRegister =>
    obtain ⟨rfl, rfl⟩ := gives_nextRegister.1 hx
    exact ⟨[], .nextRegister d, .register d⟩
  | formatIndex =>
    obtain ⟨formats, rfl, hprefix, -⟩ := gives_formatIndex hx
    exact ⟨[], .formatIndex hx, .formats hprefix⟩
  | emit code address =>
    obtain ⟨b, hb, rfl⟩ := gives_emit.1 hx
    exact ⟨_, .emit hb hx, .append hb code (.inr ⟨rfl, address⟩)⟩
  | access code =>
    obtain ⟨b, hb, rfl⟩ := gives_emit.1 hx
    exact ⟨_, .emit hb hx, .append hb code (.inl rfl)⟩
  | «variable» hname type =>
    have hwrites := Writes.newSlot hx
    obtain ⟨rfl, rfl⟩ := gives_newSlot.1 hx
    exact ⟨_, hwrites, .variable d hname type⟩
  | result n type =>
    have hwrites := Writes.newSlot hx
    obtain ⟨rfl, rfl⟩ := gives_newSlot.1 hx
    exact ⟨_, hwrites, .result d n type⟩
  | terminate _ reached =>
    obtain ⟨b, hb, rfl⟩ := gives_terminate.1 hx
    exact ⟨_, .terminate hb hx, .close hb reached⟩
  | brIfOpen label =>
    rcases gives_terminateIfOpen.1 hx with hclose | ⟨hclosed, rfl⟩
    · obtain ⟨b, hb, rfl⟩ := gives_terminate.1 hclose
      refine ⟨_, .bind (.get d) ?_, .close hb (t := .br label) (by simp)⟩
      rw [if_pos (by rw [hb]; rfl)]
      exact .terminate hb hclose
    · refine ⟨_, .bind (.get d') ?_, .skip label d'⟩
      rw [if_neg (by rw [hclosed]; exact Bool.false_ne_true)]
      exact .pure _ _
  | place inner =>
    have hwrites := Writes.place hx
    obtain ⟨hclosed, rfl⟩ := gives_place.1 hx
    exact ⟨_, hwrites, .place hclosed inner⟩
  | fail n _ ih =>
    obtain ⟨_, d1, hplace, hrest⟩ := gives_bind.1 hx
    obtain ⟨_, d2, hclose, hrest⟩ := gives_bind.1 hrest
    obtain ⟨hclosed, rfl⟩ := gives_place.1 hplace
    obtain ⟨b, hb, rfl⟩ := gives_terminate.1 hclose
    cases hb
    obtain ⟨edits, hwrites, hcourse⟩ := ih hrest hd
    exact ⟨_, .bind (.place hplace) (.bind (.terminate rfl hclose) hwrites), .trans (.fail hclosed n) hcourse⟩
  | isOpen =>
    obtain ⟨rfl, rfl⟩ := gives_isOpen.1 hx
    exact ⟨_, .bind (.get _) (.pure _ _), .refl _⟩
  | lookup name _ ih =>
    obtain ⟨b, d1, hlookup, hrest⟩ := gives_bind.1 hx
    obtain ⟨hfinds, rfl⟩ := gives_lookup.1 hlookup
    obtain ⟨edits, hwrites, hcourse⟩ := ih b (fun s hs => hd name s (hs ▸ hfinds)) hrest hd
    exact ⟨edits, .bind (writes_lookup hfinds) hwrites, hcourse⟩
  | declare name slot =>
    obtain rfl := gives_declare.1 hx
    exact ⟨_, .scopes (fun s => s.declare name _) d, .declare d name slot⟩
  | inScope _ ih =>
    obtain ⟨_, d1, hpush, hrest⟩ := gives_bind.1 hx
    obtain ⟨_, d2, hinside, hpop⟩ := gives_bind.1 hrest
    obtain rfl := gives_pushScope.1 hpush
    obtain rfl := gives_popScope.1 hpop
    obtain ⟨edits, hwrites, hcourse⟩ := ih hinside fun name s hfinds => hd name s (Scopes.finds_push.1 hfinds)
    refine ⟨_, .bind (.scopes Scopes.push d) (.bind hwrites (.scopes Scopes.pop d2)), ?_⟩
    rw [List.nil_append, List.append_nil]
    exact .inScope hcourse
  | numbered k _ own allowed ih =>
    obtain ⟨n, d1, hlabel, hrest⟩ := gives_bind.1 hx
    obtain ⟨rfl, rfl⟩ := gives_nextLabel.1 hlabel
    obtain ⟨edits, hwrites, hcourse⟩ := ih d.labels hrest hd
    exact ⟨edits, .bind (.nextLabel d) hwrites, .numbered k (own d.labels ▸ hcourse) allowed⟩

/-- Every block takes its course, whatever is in it. -/
theorem block_course {env : Env} {b : Block Ty} {u : Unit} (h : (block env b).Gives d u d') :
    ∃ edits, (block env b).Writes d edits u d' ∧ d.Course (.of .free) false [] edits d' :=
  (block_built env b b.obeys_free).course h fun _ _ _ => trivial

end Lower

end LocLang
