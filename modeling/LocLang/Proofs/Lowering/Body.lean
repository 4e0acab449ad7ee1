import LocLang.Lowering
import LocLang.Proofs.Analysis.Acceptance
import LocLang.Proofs.Lowering.Convert

namespace LocLang

variable {symbol : Symbol} {enums : EnumTable}

/-- Whether what a name refers to in code is what the analysis takes it for. -/
def Symbol.RealizedBy (Γ : Typing) (symbol : Symbol) : Binding → Prop
  | .slot slot =>
    symbol.kind = .value ∧ symbol.storage = .slot ∧ slot ∈ Γ.slots ∧ slot.type = symbol.type.machine
  | .value v => symbol.kind = .value ∧ symbol.storage = .register ∧ v.Typed Γ
  | .function signature =>
    symbol.kind = .function ∧ signature = symbol.signature ∧ signature ∈ Γ.functions

theorem Symbol.RealizedBy.mono {Γ Γ' : Typing} {b : Binding} (h : symbol.RealizedBy Γ b) (hle : Γ.Le Γ') :
    symbol.RealizedBy Γ' b := by
  cases b with
  | slot slot => exact ⟨h.1, h.2.1, hle.slots h.2.2.1, h.2.2.2⟩
  | value => exact ⟨h.1, h.2.1, h.2.2.mono hle⟩
  | function => exact ⟨h.1, h.2.1, hle.functions ▸ h.2.2⟩

/-- Whether the names of the analysis are bound in code. The built-in function is bound by its name alone. -/
structure Scopes.Realized (Γ : Typing) (s : Scopes Symbol) (t : Scopes Binding) : Prop where
  builtin : ∀ symbol, s.Finds Lower.printName symbol → symbol.kind = .function → symbol = printFunction
  bound : ∀ name symbol, s.Finds name symbol → (name = Lower.printName → symbol.kind = .value) →
    ∃ b, t.Finds name b ∧ symbol.RealizedBy Γ b

namespace Scopes.Realized

variable {Γ Γ' : Typing} {s : Scopes Symbol} {t : Scopes Binding} {name : String}

theorem mono (h : s.Realized Γ t) (hle : Γ.Le Γ') : s.Realized Γ' t where
  builtin := h.builtin
  bound name symbol hfinds hvalue := by
    obtain ⟨b, hb, hrealized⟩ := h.bound name symbol hfinds hvalue
    exact ⟨b, hb, hrealized.mono hle⟩

theorem push (h : s.Realized Γ t) : s.push.Realized Γ t.push :=
  ⟨h.builtin, h.bound⟩

theorem declare (h : s.Realized Γ t) {b : Binding} (hkind : name = Lower.printName → symbol.kind = .value)
    (hb : symbol.RealizedBy Γ b) : (s.declare name symbol).Realized Γ (t.declare name b) where
  builtin other hfinds hfunction := by
    rw [finds_declare] at hfinds
    split at hfinds
    · rename_i hname
      rw [hfinds, hkind hname] at hfunction
      cases hfunction
    · exact h.builtin other hfinds hfunction
  bound other symbol' hfinds hvalue := by
    rw [finds_declare] at hfinds
    by_cases hname : name = other
    · rw [if_pos hname] at hfinds
      exact ⟨b, finds_declare.2 (by rw [if_pos hname]), hfinds ▸ hb⟩
    · rw [if_neg hname] at hfinds
      obtain ⟨b', hb', hrealized⟩ := h.bound other symbol' hfinds hvalue
      exact ⟨b', finds_declare.2 (by rwa [if_neg hname]), hrealized⟩

/-- A value that the analysis knows is a variable or a value in code. -/
theorem of_value (h : s.Realized Γ t) (hfinds : s.Finds name symbol) (hkind : symbol.kind = .value) :
    ∃ b, t.Finds name b ∧ symbol.RealizedBy Γ b :=
  h.bound name symbol hfinds fun _ => hkind

/-- A function that the analysis knows, unless it is the built-in one, is the same function in code. -/
theorem of_function (h : s.Realized Γ t) (hfinds : s.Finds name symbol) (hkind : symbol.kind = .function)
    (hname : name ≠ Lower.printName) : t.Finds name (.function symbol.signature) ∧ symbol.signature ∈ Γ.functions := by
  obtain ⟨b, hb, hrealized⟩ := h.bound name symbol hfinds fun h => absurd h hname
  cases b with
  | function =>
    obtain ⟨-, rfl, hmem⟩ := hrealized
    exact ⟨hb, hmem⟩
  | slot slot | value v => cases hkind.symm.trans hrealized.1

end Scopes.Realized

/-- A label that denotes a type denotes the same one in code. -/
theorem EnumTable.ofName_eq_labelType {label : TypeLabel}
    (h : (enums.labelType (some label)).1 ≠ .unknown) : Ty.ofName label.name = (enums.labelType (some label)).1 := by
  rw [labelType] at h ⊢
  by_cases hgeneric : label.isGeneric
  · rw [if_pos hgeneric] at h
    exact absurd rfl h
  · rw [if_neg hgeneric] at h ⊢
    rw [Ty.ofName]
    cases hprimitive : Ty.primitive? label.name with
    | some => rfl
    | none =>
      rw [hprimitive] at h
      dsimp only at h ⊢
      split at h
      · rename_i henum
        rw [if_pos henum]
        rfl
      · exact absurd rfl h

theorem Ty.machine_ne_void {t : Ty} (h : t ≠ .void) : t.machine ≠ .void := by
  cases t <;> first | exact absurd rfl h | decide

/-- What lowering starts from: typed code that can go on, and the names of the analysis bound. -/
structure Draft.Ready (head : Lower.Head) (s : Scopes Symbol) (d : Draft) : Prop where
  typed : d.Typed head
  isOpen : d.current.isSome
  realized : s.Realized (d.typing head) d.scopes

theorem Draft.Keeps.sameOutside {head : Lower.Head} {d d' : Draft} (h : d.Keeps head d')
    (hscope : d.scopes.inner ≠ []) : d.scopes.SameOutside d'.scopes := by
  rw [h.scopes]
  exact .refl hscope

theorem Draft.Ready.keep {head : Lower.Head} {s : Scopes Symbol} {d d' : Draft} (h : d.Ready head s)
    (h' : d.Keeps head d') (hopen : d'.current.isSome) : d'.Ready head s :=
  ⟨h'.typed, hopen, h'.scopes ▸ h.realized.mono h'.le⟩

/-- Where the body of the function is walked. -/
def Lower.Head.walkEnv (head : Lower.Head) : Walk.Env :=
  ⟨head.enums, head.result⟩

namespace Lower

variable {head : Head} {s : Scopes Symbol} {d : Draft}

section Steps

variable {α : Type} {condition : Lower Operand} {body other : Lower Unit} {v : Operand} {P : α → Draft → Prop}

theorem nextLabel_typed (hd : d.Ready head s) : Adds head d nextLabel fun _ d' => d'.Ready head s := by
  have hkeeps : d.Keeps head { d with labels := d.labels + 1 } := ⟨hd.typed.leads_of_eq rfl rfl rfl rfl rfl, rfl⟩
  exact ⟨_, _, gives_nextLabel.2 ⟨rfl, rfl⟩, hkeeps, hd.keep hkeeps hd.isOpen⟩

theorem terminate_typed {t : Terminator} (hd : d.Typed head) (hopen : d.current.isSome)
    (ht : t.Typed (d.typing head)) : Adds head d (terminate t) fun _ d' => d'.current = none := by
  obtain ⟨b, hb⟩ := Option.isSome_iff_exists.1 hopen
  exact ⟨(), _, gives_terminate.2 ⟨b, hb, rfl⟩, ⟨hd.leads_terminate hb ht, rfl⟩, rfl⟩

theorem terminateIfOpen_typed {t : Terminator} (hd : d.Typed head) (ht : t.Typed (d.typing head)) :
    Adds head d (terminateIfOpen t) fun _ d' => d'.current = none := by
  cases hcurrent : d.current with
  | none => exact ⟨(), d, gives_terminateIfOpen.2 (.inr ⟨hcurrent, rfl⟩), hd.keeps, hcurrent⟩
  | some =>
    obtain ⟨_, d', hgives, hd', hclosed⟩ := terminate_typed hd (by simp [hcurrent]) ht
    exact ⟨(), d', gives_terminateIfOpen.2 (.inl hgives), hd', hclosed⟩

theorem place_typed (hd : d.Typed head) (hclosed : d.current = none) (label : Label) :
    Adds head d (place label) fun _ d' => d'.current.isSome :=
  ⟨(), _, gives_place.2 ⟨hclosed, rfl⟩, ⟨hd.leads_place hclosed label, rfl⟩, rfl⟩

/-- From the end of a block to the start of another one. -/
theorem jump_typed {t : Terminator} {label : Label} {f : Unit → Lower α} (hd : d.Typed head)
    (hopen : d.current.isSome) (ht : t.Typed (d.typing head))
    (hf : ∀ d', d.Keeps head d' → d'.current.isSome → Adds head d' (f ()) P) :
    Adds head d (terminate t >>= fun _ => place label >>= f) P := by
  refine (terminate_typed hd hopen ht).bind fun _ d1 hd1 hclosed => ?_
  exact (place_typed hd1.typed hclosed label).bind fun _ d2 hd2 => hf d2 (hd1.trans hd2)

/-- From the end of a branch, which may have been left before, to the start of another block. -/
theorem leave_typed (hd : d.Typed head) (target label : Label) :
    Adds head d (terminateIfOpen (.br target) >>= fun _ => place label) fun _ d' => d'.current.isSome :=
  (terminateIfOpen_typed (t := .br target) hd trivial).bind fun _ _ hd1 hclosed => place_typed hd1.typed hclosed label

/-- From a condition to the start of the block where it is true. -/
theorem branch_typed {ifTrue ifFalse : Label} {x : Lower α} (hcondition : Adds head d condition (Usable head))
    (hx : ∀ d', d.Keeps head d' → d'.current.isSome → Adds head d' x P) : Adds head d (do
      let v ← condition
      let c ← convert v .i1
      terminate (.condBr c ifTrue ifFalse)
      place ifTrue
      x) P := by
  refine hcondition.bind fun v d1 hd1 hv => ?_
  refine (convert_typed hd1.typed hv (by decide)).bind fun c d2 hd2 hc => ?_
  exact jump_typed hd2.typed hc.1.isOpen ⟨hc.1.typed, hc.2⟩ fun d3 hd3 => hx d3 ((hd1.trans hd2).trans hd3)

/-- A branch that is taken where a condition is true. -/
theorem guard_typed {ifTrue ifFalse target label : Label} (hd : d.Ready head s)
    (hcondition : Adds head d condition (Usable head))
    (hbody : ∀ {d' : Draft}, d'.Ready head s → Adds head d' body fun _ _ => True) : Adds head d (do
      let v ← condition
      let c ← convert v .i1
      terminate (.condBr c ifTrue ifFalse)
      place ifTrue
      body
      terminateIfOpen (.br target)
      place label) fun _ d' => d'.current.isSome :=
  branch_typed hcondition fun _ hd1 hopen1 => (hbody (hd.keep hd1 hopen1)).bind fun _ _ hd2 _ =>
    leave_typed hd2.typed target label

/-- Two branches, one for each outcome of a condition. -/
theorem fork_typed (hd : d.Ready head s) (hcondition : ∀ {d' : Draft}, d'.Ready head s →
    Adds head d' condition (Usable head)) (hbody : ∀ {d' : Draft}, d'.Ready head s → Adds head d' body fun _ _ => True)
    (hother : ∀ {d' : Draft}, d'.Ready head s → Adds head d' other fun _ _ => True) : Adds head d (do
      let n ← nextLabel
      let cond ← condition
      let cond ← convert cond .i1
      terminate (.condBr cond (.ifThen n) (.ifElse n))
      place (.ifThen n)
      body
      terminateIfOpen (.br (.ifEnd n))
      place (.ifElse n)
      other
      terminateIfOpen (.br (.ifEnd n))
      place (.ifEnd n)) fun _ d' => d'.current.isSome := by
  refine (nextLabel_typed hd).bind fun n d1 _ hready1 => branch_typed (hcondition hready1) fun d2 hd2 hopen2 => ?_
  have hready2 := hready1.keep hd2 hopen2
  refine (hbody hready2).bind fun _ d3 hd3 _ => ?_
  refine .bind (terminateIfOpen_typed hd3.typed trivial) fun _ d4 hd4 hclosed4 => ?_
  refine (place_typed hd4.typed hclosed4 _).bind fun _ d5 hd5 hopen5 => ?_
  refine (hother (hready2.keep ((hd3.trans hd4).trans hd5) hopen5)).bind fun _ d6 hd6 _ => ?_
  exact leave_typed hd6.typed _ _

theorem discriminant_gives {enumName variant : String} (h : enums.Has enumName variant) :
    ∃ n : Nat, enums.discriminant? enumName variant = some n ∧
      (discriminant enums enumName variant).Gives d (.const (.int .i32 n)) d := by
  obtain ⟨n, hn⟩ := h
  refine ⟨n, hn, ?_⟩
  rw [discriminant, hn]
  exact gives_pure.2 ⟨rfl, rfl⟩

theorem loadSlot_typed {slot : Slot} (hd : d.Typed head) (hopen : d.current.isSome) (hslot : slot ∈ d.slots) :
    Adds head d (emitValue slot.type fun dst => .load dst slot) (Usable head) :=
  (emitValue_typed slot.type (fun dst => .load dst slot) hd hopen hslot rfl rfl (hd.slots slot hslot)).mono
    fun _ _ h => h.1

theorem storeSlot_typed {slot : Slot} (hd : d.Typed head) (hv : Usable head v d) (hslot : slot ∈ d.slots)
    (htype : v.type = slot.type) : Adds head d (emit (.store v slot)) fun _ => Usable head v := by
  obtain ⟨_, d', hemit, hd', hopen⟩ := emit_typed (i := .store v slot) hd hv.isOpen ⟨hslot, hv.typed, htype⟩ rfl rfl
  exact ⟨(), d', hemit, hd', hopen, hv.typed.mono hd'.le⟩

theorem load_typed {name : String} (hd : d.Ready head s) (hfinds : s.Finds name symbol) (hkind : symbol.kind = .value) :
    Adds head d (load name) (Usable head) := by
  obtain ⟨b, hb, hrealized⟩ := hd.realized.of_value hfinds hkind
  refine .after (gives_lookup.2 ⟨hb, rfl⟩) ?_
  cases b with
  | slot slot => exact loadSlot_typed hd.typed hd.isOpen hrealized.2.2.1
  | value => exact .pure hd.typed ⟨hd.isOpen, hrealized.2.2⟩
  | function => cases hkind.symm.trans hrealized.1

theorem target_typed {name : String} (span : Span) (hd : d.Ready head s) (hfinds : s.Finds name symbol)
    (hassignable : symbol.assignable) : ∃ slot, (target (.ident span name : Expr Ty)).Gives d slot d ∧
    slot ∈ d.slots := by
  have hsymbol : symbol.kind = .value ∧ symbol.storage = .slot := by
    simpa [Symbol.assignable] using hassignable
  obtain ⟨b, hb, hrealized⟩ := hd.realized.of_value hfinds hsymbol.1
  have hlookup : (lookup name).Gives d b d := gives_lookup.2 ⟨hb, rfl⟩
  cases b with
  | slot slot => exact ⟨slot, hlookup.bind (gives_pure.2 ⟨rfl, rfl⟩), hrealized.2.2.1⟩
  | value => cases hsymbol.2.symm.trans hrealized.2.1
  | function => cases hsymbol.1.symm.trans hrealized.1

theorem callee_typed {name : String} (hd : d.Ready head s) (hfinds : s.Finds name symbol)
    (hkind : symbol.kind = .function) (hname : name ≠ printName) :
    (callee name).Gives d symbol.signature d ∧ symbol.signature ∈ head.functions := by
  obtain ⟨hb, hmem⟩ := hd.realized.of_function hfinds hkind hname
  exact ⟨gives_callee.2 ⟨hb, rfl⟩, hmem⟩

theorem call_typed {signature : Signature} {args : List Operand} (hd : d.Typed head) (hopen : d.current.isSome)
    (hsignature : signature ∈ head.functions) (hargs : ∀ v ∈ args, v.Typed (d.typing head))
    (htypes : args.map (·.type) = signature.params) : Adds head d (call signature args) (Usable head) := by
  rw [call]
  by_cases hvoid : signature.result = .void
  · rw [if_pos hvoid]
    have hcallee : ⟨signature.name, args.map (·.type), .void⟩ ∈ head.functions := by
      rw [htypes, ← hvoid]
      exact hsignature
    refine (emit_typed (i := .callVoid signature.name args) hd hopen ⟨hargs, hcallee⟩ rfl rfl).bind
      fun _ d1 hd1 hopen1 => ?_
    exact .pure hd1.typed ⟨hopen1, Operand.typed_nothing _⟩
  · rw [if_neg hvoid]
    have hcallee : ⟨signature.name, args.map (·.type), signature.result⟩ ∈ head.functions := by
      rw [htypes]
      exact hsignature
    exact (emitValue_typed _ (fun dst => .call dst signature.result signature.name args) hd hopen ⟨hvoid, hargs,
      hcallee⟩ rfl rfl hvoid).mono fun _ _ h => h.1

theorem equalTest_typed {wanted : Operand} (hd : d.Typed head) (hv : v.Typed (d.typing head))
    (hwanted : Usable head wanted d) : Adds head d (equalTest v wanted) fun c d' =>
    Usable head c d' ∧ c.type = .i1 := by
  refine (convert_typed hd hwanted hv.type_ne_void).bind fun w d1 hd1 hw => ?_
  exact operate_typed .eq hd1.typed (hv.mono hd1.le) hw.1 rfl hw.2 (.inl rfl)

theorem patternTest_typed {type : Ty} (enumName : Option String) {p : Pattern}
    (hchecked : p.Checked enums type) (hd : d.Ready head s) (hscope : d.scopes.inner ≠ [])
      (hv : v.Typed (d.typing head)) :
    ∃ c d', (patternTest enums v p).Gives d c d' ∧ d.Leads head d' ∧ d.scopes.SameOutside d'.scopes ∧
      d'.Ready head (p.scopes type enumName s) ∧ c.Typed (d'.typing head) ∧ c.type = .i1 := by
  have htest {x : Lower Operand} (hx : Adds head d x fun c d' => Usable head c d' ∧ c.type = .i1) :
      ∃ c d', x.Gives d c d' ∧ d.Leads head d' ∧ d.scopes.SameOutside d'.scopes ∧ d'.Ready head s ∧
        c.Typed (d'.typing head) ∧ c.type = .i1 := by
    obtain ⟨c, d', hgives, hd', hc, hcType⟩ := hx
    exact ⟨c, d', hgives, hd'.toLeads, hd'.sameOutside hscope, hd.keep hd' hc.isOpen, hc.typed, hcType⟩
  cases p with
  | wildcard => exact htest (.pure hd.typed ⟨⟨hd.isOpen, rfl⟩, rfl⟩)
  | bind _ name =>
    have hleads : d.Leads head { d with scopes := d.scopes.declare name (.value v) } :=
      hd.typed.leads_of_eq rfl rfl rfl rfl rfl
    have hdeclare : (declare name (.value v)).Gives d () _ := gives_declare.2 rfl
    exact ⟨_, _, hdeclare.bind (gives_pure.2 ⟨rfl, rfl⟩), hleads, Scopes.sameOutside_declare hscope _ _,
      ⟨hleads.typed, hd.isOpen, (hd.realized.mono hleads.le).declare (fun _ => rfl) ⟨rfl, rfl, hv⟩⟩, rfl, rfl⟩
  | literal _ value => exact htest (equalTest_typed hd.typed hv ⟨hd.isOpen, Constant.typed_ofLiteral value⟩)
  | variant _ _ variant =>
    obtain ⟨n, -, hdiscriminant⟩ := discriminant_gives (d := d) hchecked.1
    exact htest (.after hdiscriminant (equalTest_typed hd.typed hv ⟨hd.isOpen, rfl⟩))

theorem resultSlot_typed (hd : d.Ready head s) (n : Nat) (type : Ty) :
    Adds head d (resultSlot n type) fun slot d' => d'.current.isSome ∧ ∀ x ∈ slot, x ∈ d'.slots := by
  have hslot (hvoid : type.machine ≠ .void) : Adds head d (some <$> newSlot (fun _ => .result n) type.machine)
      fun slot d' => d'.current.isSome ∧ ∀ x ∈ slot, x ∈ d'.slots := by
    refine ⟨_, _, rfl, ⟨hd.typed.leads_newSlot ⟨.result n, type.machine⟩ hvoid, rfl⟩, hd.isOpen, ?_⟩
    intro x hx
    cases hx
    exact List.mem_append_right _ (List.mem_singleton.2 rfl)
  cases type with
  | void | unknown => exact .pure hd.typed ⟨hd.isOpen, by simp⟩
  | int32 | int64 | float32 | float64 | bool => exact hslot (by decide)

theorem loadResult_typed {slot : Option Slot} (hd : d.Typed head) (hopen : d.current.isSome)
    (hslot : ∀ x ∈ slot, x ∈ d.slots) : Adds head d (loadResult slot) (Usable head) := by
  cases slot with
  | none => exact .pure hd ⟨hopen, Operand.typed_nothing _⟩
  | some slot => exact loadSlot_typed hd hopen (hslot slot rfl)

theorem storeResult_typed {slot : Option Slot} (hd : d.Typed head) (hv : Usable head v d)
    (hslot : ∀ x ∈ slot, x ∈ d.slots) : Adds head d (storeResult v slot) fun _ _ => True := by
  cases slot with
  | none => exact .pure hd trivial
  | some slot =>
    have hmem := hslot slot rfl
    refine (convert_typed hd hv (hd.slots slot hmem)).bind fun v' d1 hd1 hv' => ?_
    exact (storeSlot_typed hd1.typed hv'.1 (hd1.le.slots hmem) hv'.2).mono fun _ _ _ => trivial

theorem declareVariable_typed (name : String) {type : MachineTy} {init : Operand} (hd : d.Typed head)
    (hinit : Usable head init d) (htype : init.type = type) :
    ∃ slot d', (declareVariable name type init).Gives d () d' ∧ d.Leads head d' ∧
      d'.scopes = d.scopes.declare name (.slot slot) ∧ slot ∈ d'.slots ∧ slot.type = type := by
  let slot : Slot := ⟨.named name d.slots.length, type⟩
  have hvoid : slot.type ≠ .void := by
    rw [show slot.type = init.type from htype.symm]
    exact hinit.typed.type_ne_void
  have hd1 : d.Leads head { d with slots := d.slots ++ [slot] } := hd.leads_newSlot slot hvoid
  have hmem : slot ∈ d.slots ++ [slot] := List.mem_append_right _ (List.mem_singleton.2 rfl)
  obtain ⟨_, d2, hemit, hd2, -⟩ := storeSlot_typed hd1.typed ⟨hinit.isOpen, hinit.typed.mono hd1.le⟩ hmem htype
  have hd3 : d2.Leads head { d2 with scopes := d2.scopes.declare name (.slot slot) } :=
    hd2.typed.leads_of_eq rfl rfl rfl rfl rfl
  have hnew : (newSlot (.named name) type).Gives d slot { d with slots := d.slots ++ [slot] } :=
    gives_newSlot.2 ⟨rfl, rfl⟩
  exact ⟨slot, _, hnew.bind (hemit.bind (gives_declare.2 rfl)), (hd1.trans hd2.toLeads).trans hd3,
    by rw [hd2.scopes], hd2.le.slots hmem, rfl⟩

/-- A statement that declares nothing leaves the names as they are. -/
theorem Adds.statement {P : Unit → Draft → Prop} (h : Adds head d body P) (hd : d.Ready head s)
    (hscope : d.scopes.inner ≠ []) : ∃ d', body.Gives d () d' ∧ d.Leads head d' ∧ d.scopes.SameOutside d'.scopes ∧
    s.Realized (d'.typing head) d'.scopes := by
  obtain ⟨_, d', hgives, hd', -⟩ := h
  exact ⟨d', hgives, hd'.toLeads, hd'.sameOutside hscope, hd'.scopes ▸ hd.realized.mono hd'.le⟩

end Steps

mutual

theorem expr_typed {s : Scopes Symbol} {d : Draft} {expected type : Ty} : ∀ e : Expr Ty, 
    e.Checked head.walkEnv s expected type → d.Ready head s → Adds head d (expr head.env e) (Usable head)
  | .literal _ value, _, hd =>
    .pure hd.typed ⟨hd.isOpen, Constant.typed_ofLiteral value⟩
  | .ident _ _, hchecked, hd => by
    obtain ⟨symbol, hfinds, hkind, -⟩ := hchecked
    exact load_typed hd hfinds hkind
  | .variant _ _ _, hchecked, hd => by
    obtain ⟨n, -, hdiscriminant⟩ := discriminant_gives (d := d) hchecked.1
    exact ⟨_, d, hdiscriminant, hd.typed.keeps, hd.isOpen, rfl⟩
  | .binary _ op lhs rhs, hchecked, hd => by
    obtain ⟨lhsType, rhsType, hlhsChecked, hrhsChecked, -⟩ := hchecked
    refine (expr_typed lhs hlhsChecked hd).bind fun l d1 hd1 hl => ?_
    refine (expr_typed rhs hrhsChecked (hd.keep hd1 hl.isOpen)).bind fun r d2 hd2 hr => ?_
    exact binary_typed op hd2.typed (hl.typed.mono hd2.le) hr
  | .assign _ place rhs, hchecked, hd => by
    cases place with
    | ident placeSpan =>
      obtain ⟨symbol, rhsType, hfinds, hassignable, hrhsChecked, -⟩ := hchecked
      obtain ⟨slot, htarget, hslot⟩ := target_typed placeSpan hd hfinds hassignable
      refine .after htarget ((expr_typed rhs hrhsChecked hd).bind fun r d1 hd1 hr => ?_)
      have hslot1 := hd1.le.slots hslot
      refine (convert_typed hd1.typed hr (hd1.typed.slots slot hslot1)).bind fun v d2 hd2 hv => ?_
      refine (storeSlot_typed hd2.typed hv.1 (hd2.le.slots hslot1) hv.2).bind fun _ d3 hd3 hv3 => ?_
      exact .pure hd3.typed hv3
    | _ => exact absurd hchecked (by simp [Expr.Checked])
  | .call _ function args, hchecked, hd => by
    cases function with
    | ident _ name =>
      obtain ⟨symbol, hfinds, hkind, hlength, hargsChecked, -⟩ := hchecked
      by_cases hname : name = printName
      · subst hname
        obtain rfl := hd.realized.builtin symbol hfinds hkind
        cases args with
        | nil => cases hlength
        | cons arg =>
          obtain ⟨⟨argType, hargChecked⟩, -⟩ := hargsChecked
          refine (expr_typed arg hargChecked hd).bind fun v d1 hd1 hv => ?_
          refine (print_typed hd1.typed hv).bind fun _ d2 hd2 hopen2 => ?_
          exact .pure hd2.typed ⟨hopen2, Operand.typed_nothing _⟩
      · rw [expr_call_ident, if_neg hname]
        obtain ⟨hcallee, hsignature⟩ := callee_typed hd hfinds hkind hname
        refine .after hcallee ((arguments_typed args name hargsChecked hlength (head.params_ne_void _ hsignature)
          hd).bind fun vs d1 hd1 hvs => ?_)
        exact call_typed hd1.typed hvs.1 hsignature hvs.2.1 hvs.2.2
    | _ => exact absurd hchecked (by simp [Expr.Checked])
  | .paren _ inner, hchecked, hd => expr_typed inner hchecked hd
  | .select m, hchecked, hd => selection_typed m m.note hchecked hd

theorem arguments_typed {s : Scopes Symbol} {d : Draft} {params : List Ty} :
    ∀ (args : List (Expr Ty)) (name : String), Expr.CheckedList head.walkEnv s params args →
    args.length = params.length →
    (∀ type ∈ params.map (·.machine), type ≠ .void) → d.Ready head s →
      Adds head d (arguments head.env name (params.map (·.machine)) args) fun vs d' => d'.current.isSome ∧
        (∀ v ∈ vs, v.Typed (d'.typing head)) ∧ vs.map (·.type) = params.map (·.machine)
  | [], _, _, hlength, _, hd => by
    obtain rfl : params = [] := List.length_eq_zero_iff.1 hlength.symm
    exact .pure hd.typed ⟨hd.isOpen, by simp, rfl⟩
  | arg :: args, name, hchecked, hlength, hvoid, hd => by
    cases params with
    | nil => cases hlength
    | cons =>
      obtain ⟨⟨argType, hargChecked⟩, hargsChecked⟩ := hchecked
      refine (expr_typed arg hargChecked hd).bind fun v d1 hd1 hv => ?_
      refine (convert_typed hd1.typed hv (hvoid _ List.mem_cons_self)).bind fun v' d2 hd2 hv' => ?_
      refine (arguments_typed args name hargsChecked (Nat.succ.inj hlength)
        (fun type h => hvoid type (List.mem_cons_of_mem _ h)) (hd.keep (hd1.trans hd2) hv'.1.isOpen)).bind
        fun vs d3 hd3 hvs => .pure hd3.typed ⟨hvs.1, ?_, ?_⟩
      · exact List.forall_mem_cons.2 ⟨hv'.1.typed.mono hd3.le, hvs.2.1⟩
      · rw [List.map_cons, hv'.2, hvs.2.2]
        rfl

theorem selection_typed {s : Scopes Symbol} {d : Draft} {expected type : Ty} : ∀ (m : Match Ty) (result : Ty), 
    m.Checked head.walkEnv s expected type → d.Ready head s → Adds head d (selection head.env result m) (Usable head)
  | .mk _ _ scrutinee arms, result, hchecked, hd => by
    obtain ⟨scrutineeType, joined, hscrutineeChecked, harmsChecked, -⟩ := hchecked
    refine (nextLabel_typed hd).bind fun n d1 _ hready1 => ?_
    refine (expr_typed scrutinee hscrutineeChecked hready1).bind fun v d2 hd2 hv => ?_
    have hready2 := hready1.keep hd2 hv.isOpen
    refine (resultSlot_typed hready2 n result).bind fun slot d3 hd3 hslot => ?_
    refine .bind (terminate_typed hd3.typed hslot.1 trivial) fun _ d4 hd4 hclosed4 => ?_
    have hkeeps := hd3.trans hd4
    refine (armList_typed arms slot harmsChecked hd4.typed hclosed4 (hkeeps.scopes ▸ hready2.realized.mono hkeeps.le)
      (hv.typed.mono hkeeps.le) fun x hx => hd4.le.slots (hslot.2 x hx)).bind fun _ d5 hd5 hclosed5 => ?_
    refine (place_typed hd5.typed hclosed5 _).bind fun _ d6 hd6 hopen6 => ?_
    refine jump_typed hd6.typed hopen6 trivial fun d7 hd7 hopen7 => ?_
    exact loadResult_typed hd7.typed hopen7
      fun x hx => (((hd4.trans hd5).trans hd6).trans hd7).le.slots (hslot.2 x hx)

theorem armList_typed {s : Scopes Symbol} {d : Draft} {expected type : Ty} {enumName : Option String}
    {sofar joined : Ty} {n k : Nat} {v : Operand} : ∀ (arms : List (Arm Ty)) (slot : Option Slot),
    Arm.CheckedList head.walkEnv s expected type enumName sofar joined arms → d.Typed head → d.current = none →
    s.Realized (d.typing head) d.scopes → v.Typed (d.typing head) → (∀ x ∈ slot, x ∈ d.slots) →
      Adds head d (armList head.env n v slot k arms) fun _ d' => d'.current = none
  | [], _, _, hd, hclosed, _, _, _ =>
    .pure hd hclosed
  | arm :: arms, slot, hchecked, hd, hclosed, hs, hv, hslot => by
    obtain ⟨next, hpatternChecked, harmChecked, harmsChecked⟩ := hchecked
    have hd1 : d.Leads head { d with scopes := d.scopes.push } := hd.leads_of_eq rfl rfl rfl rfl rfl
    have hpush : pushScope.Gives d () { d with scopes := d.scopes.push } := gives_pushScope.2 rfl
    obtain ⟨_, d2, hplace, hd2, hopen2⟩ := place_typed hd1.typed hclosed (.matchTest n k)
    have hready2 : d2.Ready head s.push :=
      ⟨hd2.typed, hopen2, hd2.scopes ▸ hs.push.mono (hd1.le.trans hd2.le)⟩
    have hscopes2 : d2.scopes = d.scopes.push := hd2.scopes
    have hle2 := hd1.le.trans hd2.le
    obtain ⟨c, d3, hpattern, hd3, hscopes3, hready3, hc, hcType⟩ := patternTest_typed enumName
      hpatternChecked hready2 (hscopes2 ▸ Scopes.push_inner_ne_nil _) (hv.mono hle2)
    rw [hscopes2] at hscopes3
    obtain ⟨_, d4, hbranch, hd4, hclosed4⟩ := terminate_typed (t := .condBr c (.matchArm n k) (nextTest n (k + 1) arms))
      hd3.typed hready3.isOpen ⟨hc, hcType⟩
    obtain ⟨_, d5, hplace', hd5, hopen5⟩ := place_typed hd4.typed hclosed4 (.matchArm n k)
    have hd5 := hd4.trans hd5
    obtain ⟨_, d6, hbody, hd6, -⟩ := armBody_typed arm slot harmChecked (hready3.keep hd5 hopen5)
      (fun x hx => (hle2.trans (hd3.le.trans hd5.le)).slots (hslot x hx))
    obtain ⟨_, d7, hleave, hd7, hclosed7⟩ := terminateIfOpen_typed (t := .br (.matchEnd n)) hd6.typed trivial
    have hpop : popScope.Gives d7 () { d7 with scopes := d7.scopes.pop } := gives_popScope.2 rfl
    have hd7 := (hd5.trans hd6).trans hd7
    have hd8 : d7.Leads head { d7 with scopes := d7.scopes.pop } := hd7.typed.leads_of_eq rfl rfl rfl rfl rfl
    have hscopes8 : d7.scopes.pop = d.scopes := by
      rw [hd7.scopes]
      exact hscopes3.pop_eq_of_push
    have hkeeps : d.Keeps head { d7 with scopes := d7.scopes.pop } :=
      ⟨(((hd1.trans hd2.toLeads).trans hd3).trans hd7.toLeads).trans hd8, hscopes8⟩
    obtain ⟨_, d9, hrest, hd9, hclosed9⟩ := armList_typed arms slot (n := n) (k := k + 1) (v := v)
      harmsChecked hkeeps.typed hclosed7 (hkeeps.scopes ▸ hs.mono hkeeps.le) (hv.mono hkeeps.le)
      (fun x hx => hkeeps.le.slots (hslot x hx))
    exact ⟨(), d9, hpush.bind (hplace.bind (hpattern.bind (hbranch.bind (hplace'.bind (hbody.bind (hleave.bind
      (hpop.bind hrest))))))), hkeeps.trans hd9, hclosed9⟩

theorem armBody_typed {s : Scopes Symbol} {d : Draft} {expected sofar joined : Ty} :
      ∀ (arm : Arm Ty) (slot : Option Slot), arm.Checked head.walkEnv s expected sofar joined → d.Ready head s →
      (∀ x ∈ slot, x ∈ d.slots) → Adds head d (armBody head.env slot arm) fun _ _ => True
  | .block _ _ body, _, hchecked, hd, _ =>
    block_typed body hchecked.1 hd
  | .value _ _ value, _, hchecked, hd, hslot => by
    obtain ⟨type, hvalueChecked, -⟩ := hchecked
    refine (expr_typed value hvalueChecked hd).bind fun v d1 hd1 hv => ?_
    exact storeResult_typed hd1.typed hv fun x hx => hd1.le.slots (hslot x hx)

theorem block_typed {s : Scopes Symbol} {d : Draft} : ∀ b : Block Ty, b.Checked head.walkEnv s → d.Ready head s →
    Adds head d (block head.env b) fun _ _ => True
  | .mk _ stmts, hchecked, hd => by
    have hpush : pushScope.Gives d () { d with scopes := d.scopes.push } := gives_pushScope.2 rfl
    have hd1 : d.Leads head { d with scopes := d.scopes.push } := hd.typed.leads_of_eq rfl rfl rfl rfl rfl
    obtain ⟨d2, hstmts, hd2, hscopes2⟩ := stmtList_typed stmts hchecked
      ⟨hd1.typed, hd.isOpen, hd.realized.push.mono hd1.le⟩ (Scopes.push_inner_ne_nil _)
    have hpop : popScope.Gives d2 () { d2 with scopes := d2.scopes.pop } := gives_popScope.2 rfl
    have hd3 : d2.Leads head { d2 with scopes := d2.scopes.pop } := hd2.typed.leads_of_eq rfl rfl rfl rfl rfl
    exact ⟨(), _, hpush.bind (hstmts.bind hpop), ⟨(hd1.trans hd2).trans hd3, hscopes2.pop_eq_of_push⟩, trivial⟩

theorem stmtList_typed {s : Scopes Symbol} {d : Draft} : ∀ stmts : List (Stmt Ty), 
    Stmt.CheckedList head.walkEnv s stmts → d.Ready head s → d.scopes.inner ≠ [] →
      ∃ d', (stmtList head.env stmts).Gives d () d' ∧ d.Leads head d' ∧ d.scopes.SameOutside d'.scopes
  | [], _, hd, hscope => ⟨d, gives_pure.2 ⟨rfl, rfl⟩, hd.typed.leads, .refl hscope⟩
  | stmt :: stmts, hchecked, hd, hscope => by
    obtain ⟨hstmtChecked, hstmtsChecked⟩ := hchecked
    obtain ⟨d1, hstmt, hd1, hscopes1, hrealized1⟩ := statement_typed stmt hstmtChecked hd hscope
    have hisOpen : isOpen.Gives d1 d1.current.isSome d1 := gives_isOpen.2 ⟨rfl, rfl⟩
    cases hopen : d1.current.isSome with
    | false =>
      refine ⟨d1, hstmt.bind (hisOpen.bind ?_), hd1, hscopes1⟩
      rw [hopen]
      exact gives_pure.2 ⟨rfl, rfl⟩
    | true =>
      obtain ⟨d2, hstmts, hd2, hscopes2⟩ := stmtList_typed stmts hstmtsChecked ⟨hd1.typed, hopen, hrealized1⟩
        hscopes1.open_right
      refine ⟨d2, hstmt.bind (hisOpen.bind ?_), hd1.trans hd2, hscopes1.trans hscopes2⟩
      rw [hopen]
      exact hstmts

theorem chain_typed {s : Scopes Symbol} {d : Draft} : ∀ c : IfChain Ty, c.Checked head.walkEnv s → d.Ready head s →
    Adds head d (chain head.env c) fun _ d' => d'.current.isSome
  | .only _ condition body, hchecked, hd => by
    obtain ⟨⟨type, hconditionChecked⟩, hbodyChecked⟩ := hchecked
    refine (nextLabel_typed hd).bind fun n d1 _ hready1 => ?_
    exact guard_typed hready1 (expr_typed condition hconditionChecked hready1) (block_typed body hbodyChecked)
  | .orElse _ condition body other, hchecked, hd => by
    obtain ⟨⟨type, hconditionChecked⟩, hbodyChecked, hotherChecked⟩ := hchecked
    exact fork_typed hd (expr_typed condition hconditionChecked) (block_typed body hbodyChecked)
      (block_typed other hotherChecked)
  | .orIf _ condition body next, hchecked, hd => by
    obtain ⟨⟨type, hconditionChecked⟩, hbodyChecked, hnextChecked⟩ := hchecked
    exact fork_typed hd (expr_typed condition hconditionChecked) (block_typed body hbodyChecked)
      fun hready => (chain_typed next hnextChecked hready).mono fun _ _ _ => trivial

theorem statement_typed {s : Scopes Symbol} {d : Draft} : ∀ stmt : Stmt Ty, stmt.Checked head.walkEnv s →
    d.Ready head s → d.scopes.inner ≠ [] →
      ∃ d', (statement head.env stmt).Gives d () d' ∧ d.Leads head d' ∧ d.scopes.SameOutside d'.scopes ∧
        (stmt.scopes head.enums s).Realized (d'.typing head) d'.scopes
  | .block body, hchecked, hd, hscope => (block_typed body hchecked hd).statement hd hscope
  | .decl _ _ name _ _ init, hchecked, hd, hscope => by
    obtain ⟨hknown, hvoid, hinitChecked⟩ := hchecked
    have htype := EnumTable.ofName_eq_labelType hknown
    obtain ⟨v, d1, hinit, hd1, hv, hvType⟩ := initializer_typed init hinitChecked (Ty.machine_ne_void hvoid) hd
    obtain ⟨slot, d2, hdeclare, hd2, hscopes2, hslot, hslotType⟩ := declareVariable_typed name hd1.typed hv hvType
    have hleads := hd1.toLeads.trans hd2
    rw [hd1.scopes] at hscopes2
    rw [statement, htype]
    refine ⟨d2, hinit.bind hdeclare, hleads, hscopes2 ▸ Scopes.sameOutside_declare hscope _ _, ?_⟩
    rw [hscopes2]
    exact (hd.realized.mono hleads.le).declare (fun _ => rfl) ⟨rfl, rfl, hslot, hslotType⟩
  | .cond c, hchecked, hd, hscope => (chain_typed c hchecked hd).statement hd hscope
  | .loop _ condition body, hchecked, hd, hscope => by
    obtain ⟨⟨type, hconditionChecked⟩, hbodyChecked⟩ := hchecked
    refine Adds.statement (P := fun _ d' => d'.current.isSome)
      (.bind (nextLabel_typed hd) fun n d1 _ hready1 => ?_) hd hscope
    refine jump_typed hready1.typed hready1.isOpen trivial fun d2 hd2 hopen2 => ?_
    have hready2 := hready1.keep hd2 hopen2
    exact guard_typed hready2 (expr_typed condition hconditionChecked hready2) (block_typed body hbodyChecked)
  | .select m, hchecked, hd, hscope => by
    obtain ⟨type, hmatchChecked⟩ := hchecked
    exact Adds.statement (P := fun _ _ => True)
      (.bind (selection_typed m .void hmatchChecked hd) fun _ _ hd1 _ => .pure hd1.typed trivial) hd hscope
  | .ret _ none, hchecked, hd, hscope => by
    have hvoid : head.result.machine = .void := by
      rw [show head.result = .void from hchecked]
      rfl
    exact (terminate_typed (t := .retVoid) hd.typed hd.isOpen hvoid).statement hd hscope
  | .ret _ (some value), hchecked, hd, hscope => by
    obtain ⟨hvoid, type, hvalueChecked⟩ := hchecked
    refine Adds.statement (P := fun _ d' => d'.current = none)
      (.bind (expr_typed value hvalueChecked hd) fun v d1 hd1 hv => ?_) hd hscope
    refine (convert_typed hd1.typed hv (Ty.machine_ne_void hvoid)).bind fun w d2 hd2 hw => ?_
    exact terminate_typed hd2.typed hw.1.isOpen ⟨hw.1.typed, hw.2⟩
  | .expr _ value, hchecked, hd, hscope => by
    obtain ⟨type, hvalueChecked⟩ := hchecked
    exact Adds.statement (P := fun _ _ => True)
      (.bind (expr_typed value hvalueChecked hd) fun _ _ hd1 _ => .pure hd1.typed trivial) hd hscope

theorem initializer_typed {s : Scopes Symbol} {d : Draft} {expected : Ty} {type : MachineTy} :
      ∀ init : Option (Expr Ty), Expr.CheckedInit head.walkEnv s expected init → type ≠ .void → d.Ready head s →
      Adds head d (initializer head.env type init) fun v d' => Usable head v d' ∧ v.type = type
  | none, _, hvoid, hd => by
    obtain ⟨hc, hcType⟩ := Constant.typed_ofNumber hvoid 0 (.ofInt 0)
    exact .pure hd.typed ⟨⟨hd.isOpen, hc⟩, hcType⟩
  | some value, hchecked, hvoid, hd => by
    obtain ⟨valueType, hvalueChecked⟩ := hchecked
    refine (expr_typed value hvalueChecked hd).bind fun v d1 hd1 hv => ?_
    exact convert_typed hd1.typed hv hvoid

end

end Lower

end LocLang
