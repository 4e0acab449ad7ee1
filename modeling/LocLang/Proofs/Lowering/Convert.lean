import LocLang.Proofs.Lowering.TypedDraft

namespace LocLang

open MachineTy

variable {type : MachineTy} {v lhs rhs : Operand}

namespace Constant

theorem typed_ofNumber (hvoid : type ≠ .void) (n : Int) (x : Double) :
    (ofNumber type n x).Typed ∧ (ofNumber type n x).type = type := by
  cases type with
  | void => exact absurd rfl hvoid
  | i1 | i32 | i64 | float | double => exact ⟨rfl, rfl⟩

theorem typed_fold (c : Constant) (hvoid : type ≠ .void) : (c.fold type).Typed ∧ (c.fold type).type = type := by
  cases c with
  | int _ n => exact typed_ofNumber hvoid n _
  | float _ x => exact typed_ofNumber hvoid _ x

theorem typed_ofLiteral (value : Literal) : (ofLiteral value).Typed := by
  cases value with
  | int =>
    rw [ofLiteral]
    split <;> rfl
  | float | bool => rfl

/-- The constant in another type, as code has it. -/
def inType (c : Constant) (type : MachineTy) : Constant :=
  if c.type = type then c else c.fold type

theorem type_inType (hvoid : type ≠ .void) (c : Constant) : (c.inType type).type = type := by
  rw [inType]
  split
  · assumption
  · exact (c.typed_fold hvoid).2

end Constant

theorem Lower.convert_const (hvoid : type ≠ .void) (c : Constant) :
    convert (.const c) type = pure (.const (c.inType type)) := by
  rw [convert, Constant.inType]
  by_cases hsame : c.type = type
  · rw [if_pos (.inl hsame), if_pos hsame]
  · rw [if_neg fun h => h.elim hsame hvoid, if_neg hsame]

theorem Operand.typed_nothing (Γ : Typing) : Operand.nothing.Typed Γ :=
  (rfl : isInteger .i32 = true)

/-- A conversion between two types is one that exists between them. -/
theorem Conversion.accepts_of_between {source target : MachineTy} {op : CastOp} (hne : source ≠ target)
    (hsource : source ≠ .void) (htarget : target ≠ .void) (h : between source target = cast op) :
    op.accepts source target := by
  revert h
  cases source <;> cases target <;> first | contradiction | (intro h; cases h; rfl) | (intro h; cases h)

theorem Conversion.typed_inst {Γ : Typing} (hv : v.Typed Γ) (hne : v.type ≠ type) (hvoid : type ≠ .void) (dst : Nat) :
    ((between v.type type).inst v type dst).Typed Γ ∧
      ((between v.type type).inst v type dst).register? = some (dst, type) ∧
      ((between v.type type).inst v type dst).slot? = none := by
  cases hbetween : between v.type type with
  | cast => exact ⟨⟨hv, accepts_of_between hne hv.type_ne_void hvoid hbetween⟩, rfl, rfl⟩
  | notZero =>
    have hclass : type = .i1 ∧ v.type.isInteger := by
      have hsource := hv.type_ne_void
      revert hbetween hne hsource hvoid
      cases v.type <;> cases type <;> simp [between, isFloating, ty, Ty.isFloating,
        isInteger, Ty.isInteger, Ty.lowered, size, Ty.size]
    obtain ⟨rfl, hinteger⟩ := hclass
    exact ⟨⟨hv, hinteger, rfl, hinteger⟩, rfl, rfl⟩
  | notZeroFloat =>
    have hclass : type = .i1 ∧ v.type.isFloating := by
      have hsource := hv.type_ne_void
      revert hbetween hne hsource hvoid
      cases v.type <;> cases type <;> simp [between, isFloating, ty, Ty.isFloating,
        size, Ty.size, Ty.lowered]
    obtain ⟨rfl, hfloat⟩ := hclass
    exact ⟨⟨hv, hfloat, rfl, hfloat⟩, rfl, rfl⟩

/-- The operation of an operator takes operands of one type and gives a value of the operator's type. -/
theorem BinaryOp.typed_inst {Γ : Typing} (op : BinaryOp) (hlhs : lhs.Typed Γ) (hrhs : rhs.Typed Γ)
    (hlhsType : lhs.type = type) (hrhsType : rhs.type = type) (harith : op.isComparison ∨ type ≠ .i1) (dst : Nat) :
    (op.inst type.isFloating lhs rhs dst).Typed Γ ∧
      (op.inst type.isFloating lhs rhs dst).register? = some (dst, op.resultType type) ∧
      (op.inst type.isFloating lhs rhs dst).slot? = none := by
  have hvoid : type ≠ .void := hlhsType ▸ hlhs.type_ne_void
  have hsame : lhs.type = rhs.type := hlhsType.trans hrhsType.symm
  cases hfloat : type.isFloating with
  | true =>
    cases op <;>
      refine ⟨⟨hlhs, hrhs, hsame, ?_⟩, ?_, rfl⟩ <;>
      simp [ArithOp.accepts, hlhsType, hfloat, inst, Inst.register?, resultType, isComparison]
  | false =>
    have hinteger := isInteger_of_not_isFloating hvoid (by simp [hfloat])
    cases op <;>
      refine ⟨⟨hlhs, hrhs, hsame, ?_⟩, ?_, rfl⟩ <;>
      simp_all [ArithOp.accepts, inst, Inst.register?, resultType, isComparison]

theorem MachineTy.wider_ne_void {a b : MachineTy} (ha : a ≠ .void) (hb : b ≠ .void) : a.wider b ≠ .void := by
  cases a <;> cases b <;> first | contradiction | decide

theorem BinaryOp.operandType_ne_void (op : BinaryOp) {lhs rhs : MachineTy} (hlhs : lhs ≠ .void)
    (hrhs : rhs ≠ .void) : op.operandType lhs rhs ≠ .void := by
  rw [operandType]
  split
  · decide
  · exact wider_ne_void hlhs hrhs

theorem BinaryOp.isComparison_or_operandType_ne (op : BinaryOp) (lhs rhs : MachineTy) :
    op.isComparison ∨ op.operandType lhs rhs ≠ .i1 := by
  by_cases hcomparison : op.isComparison
  · exact .inl hcomparison
  · refine .inr ?_
    rw [operandType]
    split
    · decide
    · rename_i hne
      exact fun h => hne ⟨h, hcomparison⟩

theorem BinaryOp.resultType_ne_void (op : BinaryOp) (h : type ≠ .void) : op.resultType type ≠ .void := by
  rw [resultType]
  split
  · decide
  · exact h

namespace Lower

variable {head : Head} {d : Draft} {α β : Type}

/-- Whether work succeeds and adds typed code in the scopes where it starts. -/
def Adds (head : Head) (d : Draft) (x : Lower α) (P : α → Draft → Prop) : Prop :=
  ∃ a d', x.Gives d a d' ∧ d.Keeps head d' ∧ P a d'

/-- Whether more code can follow, and can use a value. -/
structure Usable (head : Head) (v : Operand) (d : Draft) : Prop where
  isOpen : d.current.isSome
  typed : v.Typed (d.typing head)

namespace Adds

variable {P : α → Draft → Prop} {Q : β → Draft → Prop} {x : Lower α} {f : α → Lower β} {a : α}

protected theorem pure (hd : d.Typed head) (h : P a d) : Adds head d (pure a) P :=
  ⟨a, d, gives_pure.2 ⟨rfl, rfl⟩, hd.keeps, h⟩

theorem bind (hx : Adds head d x P) (hf : ∀ a d', d.Keeps head d' → P a d' → Adds head d' (f a) Q) : Adds head
    d (x >>= f) Q := by
  obtain ⟨a, d1, hgives, hd1, ha⟩ := hx
  obtain ⟨b, d2, hrest, hd2, hb⟩ := hf a d1 hd1 ha
  exact ⟨b, d2, hgives.bind hrest, hd1.trans hd2, hb⟩

theorem after (hx : x.Gives d a d) (hf : Adds head d (f a) Q) : Adds head d (x >>= f) Q := by
  obtain ⟨b, d', hrest, hd', hb⟩ := hf
  exact ⟨b, d', hx.bind hrest, hd', hb⟩

theorem mono {P' : α → Draft → Prop} (hx : Adds head d x P) (h : ∀ a d', P a d' → P' a d') : Adds head d x P' := by
  obtain ⟨a, d', hgives, hd', ha⟩ := hx
  exact ⟨a, d', hgives, hd', h a d' ha⟩

end Adds

theorem emit_typed {i : Inst} (hd : d.Typed head) (hopen : d.current.isSome) (hi : i.Typed (d.typing head))
    (hregister : i.register? = none) (hslot : i.slot? = none) : Adds head d (emit i) fun _ d' => d'.current.isSome := by
  obtain ⟨b, hb⟩ := Option.isSome_iff_exists.1 hopen
  exact ⟨(), _, gives_emit.2 ⟨b, hb, rfl⟩, ⟨hd.leads_emit hb hi hregister hslot, rfl⟩, rfl⟩

theorem emitValue_typed (type : MachineTy) (inst : Nat → Inst) (hd : d.Typed head) (hopen : d.current.isSome)
    (hi : (inst d.registers).Typed (d.typing head))
    (hregister : (inst d.registers).register? = some (d.registers, type)) (hslot : (inst d.registers).slot? = none)
    (hvoid : type ≠ .void) : Adds head d (emitValue type inst) fun v d' => Usable head v d' ∧ v.type = type := by
  obtain ⟨b, hb⟩ := Option.isSome_iff_exists.1 hopen
  obtain ⟨hleads, hv⟩ := hd.leads_emitValue hb hi hregister hslot hvoid
  exact ⟨_, _, gives_emitValue.2 ⟨b, hb, rfl, rfl⟩, ⟨hleads, rfl⟩, ⟨rfl, hv⟩, rfl⟩

theorem convert_typed (hd : d.Typed head) (hv : Usable head v d) (hvoid : type ≠ .void) :
    Adds head d (convert v type) fun v' d' => Usable head v' d' ∧ v'.type = type := by
  rw [convert.eq_def]
  by_cases hsame : v.type = type ∨ type = .void
  · rw [if_pos hsame]
    exact .pure hd ⟨hv, hsame.resolve_right hvoid⟩
  · rw [if_neg hsame]
    have hne : v.type ≠ type := fun h => hsame (.inl h)
    obtain ⟨hi, hregister, hslot⟩ := Conversion.typed_inst hv.typed hne hvoid d.registers
    cases v with
    | const c =>
      obtain ⟨hc, htype⟩ := c.typed_fold hvoid
      exact .pure hd ⟨⟨hv.isOpen, hc⟩, htype⟩
    | param name _ | reg index _ => exact emitValue_typed _ _ hd hv.isOpen hi hregister hslot hvoid

theorem operate_typed (op : BinaryOp) (hd : d.Typed head) (hlhs : lhs.Typed (d.typing head)) (hrhs : Usable head rhs d)
    (hlhsType : lhs.type = type) (hrhsType : rhs.type = type) (harith : op.isComparison ∨ type ≠ .i1) :
    Adds head d (operate op type lhs rhs) fun v d' => Usable head v d' ∧ v.type = op.resultType type := by
  obtain ⟨hi, hregister, hslot⟩ := op.typed_inst hlhs hrhs.typed hlhsType hrhsType harith d.registers
  exact emitValue_typed _ _ hd hrhs.isOpen hi hregister hslot (op.resultType_ne_void (hlhsType ▸ hlhs.type_ne_void))

theorem binary_typed (op : BinaryOp) (hd : d.Typed head) (hlhs : lhs.Typed (d.typing head))
    (hrhs : Usable head rhs d) : Adds head d (binary op lhs rhs) (Usable head) := by
  have hvoid := op.operandType_ne_void hlhs.type_ne_void hrhs.typed.type_ne_void
  refine (convert_typed hd ⟨hrhs.isOpen, hlhs⟩ hvoid).bind fun lhs' d1 hd1 hlhs' => ?_
  refine (convert_typed hd1.typed ⟨hlhs'.1.isOpen, hrhs.typed.mono hd1.le⟩ hvoid).bind fun rhs' d2 hd2 hrhs' => ?_
  exact (operate_typed op hd2.typed (hlhs'.1.typed.mono hd2.le) hrhs'.1 hlhs'.2 hrhs'.2
    (op.isComparison_or_operandType_ne _ _)).mono fun _ _ h => h.1

theorem print_typed (hd : d.Typed head) (hv : Usable head v d) :
    Adds head d (print v) fun _ d' => d'.current.isSome := by
  have hformat (format : PrintFormat) (type : MachineTy) (htype : (format.text, type) ∈ PrintFormat.types) :
      Adds head d (do
        let v ← convert v type
        let _ ← runtimeFunction "printf"
        let index ← formatIndex format
        let _ ← emitValue .i32 fun dst => .print dst index format v) fun _ d' => d'.current.isSome := by
    have hvoid : type ≠ .void := by
      rintro rfl
      simp [PrintFormat.types] at htype
    refine (convert_typed hd hv hvoid).bind fun v' d1 hd1 hv' => ?_
    rw [runtimeFunction_printf]
    obtain ⟨index, d2, hindex⟩ := exists_gives_formatIndex format d1
    obtain ⟨formats, rfl, hprefix, hget⟩ := gives_formatIndex hindex
    have hd2 := hd1.typed.leads_formats hprefix
    obtain ⟨r, d3, hemit, hd3, hr, -⟩ := emitValue_typed .i32 (fun dst => .print dst index format v') hd2.typed
      hv'.1.isOpen ⟨hv'.1.typed.mono hd2.le, hget, hv'.2 ▸ htype⟩ rfl rfl (by decide)
    exact ⟨(), d3, hindex.bind (hemit.bind (gives_pure.2 ⟨rfl, rfl⟩)), ⟨hd2.trans hd3.toLeads, hd3.scopes⟩, hr.isOpen⟩
  rw [print]
  cases v.type with
  | i64 => exact hformat .int64 .i64 (by decide)
  | float | double => exact hformat .float64 .double (by decide)
  | i1 | i32 | void => exact hformat .int32 .i32 (by decide)

end Lower

end LocLang
