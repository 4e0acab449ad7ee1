import LocLang.Lowering.Draft

namespace LocLang

namespace MachineTy

variable {t : MachineTy}

/-- Whether values are integers; truth values are integers of one bit. -/
def isInteger (t : MachineTy) : Bool :=
  t.ty.isInteger

theorem isInteger_or_isFloating (h : t ≠ .void) : t.isInteger ∨ t.isFloating := by
  cases t <;> simp_all [isInteger, isFloating, ty, Ty.isInteger, Ty.isFloating, Ty.lowered]

theorem isInteger_of_not_isFloating (h : t ≠ .void) (hfloat : ¬t.isFloating) : t.isInteger :=
  (isInteger_or_isFloating h).resolve_right hfloat

theorem ne_void_of_isInteger (h : t.isInteger) : t ≠ .void := by
  rintro rfl
  cases h

theorem ne_void_of_isFloating (h : t.isFloating) : t ≠ .void := by
  rintro rfl
  cases h

end MachineTy

/-- Whether the operation is one on values of the type. There is none on truth values. -/
def ArithOp.accepts (op : ArithOp) (t : MachineTy) : Bool :=
  match op with
  | add | sub | mul | sdiv => t.isInteger && t ≠ .i1
  | fadd | fsub | fmul | fdiv => t.isFloating

/-- Whether the conversion goes from one type to the other. -/
def CastOp.accepts (op : CastOp) (source target : MachineTy) : Bool :=
  match op with
  | sext | zext => source.isInteger && target.isInteger && source.size < target.size
  | trunc => source.isInteger && target.isInteger && target.size < source.size
  | fpext => source.isFloating && target.isFloating && source.size < target.size
  | fptrunc => source.isFloating && target.isFloating && target.size < source.size
  | sitofp | uitofp => source.isInteger && target.isFloating
  | fptosi => source.isFloating && target.isInteger

/-- The formats as characters, each with the type of the values that it is for. -/
def PrintFormat.types : List (String × MachineTy) :=
  [("%d\n", .i32), ("%ld\n", .i64), ("%f\n", .double)]

/-- What code can refer to, and what its function returns. -/
structure Typing where
  params : List IrParam
  /-- The registers that get a value, with its type. -/
  registers : List (Nat × MachineTy)
  slots : List Slot
  formats : List PrintFormat
  functions : List Signature
  result : MachineTy

/-- Whether more can be referred to in the same function. Formats keep their numbers. -/
structure Typing.Le (Γ Γ' : Typing) : Prop where
  params : Γ'.params = Γ.params
  registers : Γ.registers ⊆ Γ'.registers
  slots : Γ.slots ⊆ Γ'.slots
  formats : Γ.formats <+: Γ'.formats
  functions : Γ'.functions = Γ.functions
  result : Γ'.result = Γ.result

namespace Typing.Le

variable {Γ Γ' Γ'' : Typing}

@[refl]
theorem refl (Γ : Typing) : Γ.Le Γ :=
  ⟨rfl, fun _ h => h, fun _ h => h, List.prefix_rfl, rfl, rfl⟩

theorem trans (h : Γ.Le Γ') (h' : Γ'.Le Γ'') : Γ.Le Γ'' :=
  ⟨h'.params.trans h.params, fun _ hr => h'.registers (h.registers hr), fun _ hs => h'.slots (h.slots hs),
    h.formats.trans h'.formats, h'.functions.trans h.functions, h'.result.trans h.result⟩

end Typing.Le

/-- Whether a constant is of a type that has such values. -/
def Constant.Typed : Constant → Prop
  | int type _ => type.isInteger
  | float type _ => type.isFloating

/-- Whether an operand is a value of its type. -/
def Operand.Typed (Γ : Typing) : Operand → Prop
  | const c => c.Typed
  | param name type => ⟨name, type⟩ ∈ Γ.params ∧ type ≠ .void
  | reg index type => (index, type) ∈ Γ.registers ∧ type ≠ .void

namespace Operand.Typed

variable {Γ Γ' : Typing} {v : Operand}

theorem mono (h : v.Typed Γ) (hle : Γ.Le Γ') : v.Typed Γ' := by
  cases v with
  | const => exact h
  | param => exact ⟨hle.params ▸ h.1, h.2⟩
  | reg => exact ⟨hle.registers h.1, h.2⟩

theorem type_ne_void (h : v.Typed Γ) : v.type ≠ .void := by
  cases v with
  | const c =>
    cases c with
    | int => exact MachineTy.ne_void_of_isInteger h
    | float => exact MachineTy.ne_void_of_isFloating h
  | param | reg => exact h.2

end Operand.Typed

namespace Inst

/-- The register that an instruction gives a value to, with the type of the value. -/
def register? : Inst → Option (Nat × MachineTy)
  | alloca _ | store _ _ | callVoid _ _ => none
  | load dst slot => some (dst, slot.type)
  | arith dst _ lhs _ => some (dst, lhs.type)
  | icmp dst _ _ _ | fcmp dst _ _ _ => some (dst, .i1)
  | cast dst _ _ type => some (dst, type)
  | call dst type _ _ => some (dst, type)
  | print dst _ _ _ => some (dst, .i32)

def slot? : Inst → Option Slot
  | alloca slot => some slot
  | _ => none

/-- Whether an instruction is in order: its operands have the types that it needs. -/
def Typed (Γ : Typing) : Inst → Prop
  | alloca slot => slot.type ≠ .void
  | store value slot => slot ∈ Γ.slots ∧ value.Typed Γ ∧ value.type = slot.type
  | load _ slot => slot ∈ Γ.slots
  | arith _ op lhs rhs => lhs.Typed Γ ∧ rhs.Typed Γ ∧ lhs.type = rhs.type ∧ op.accepts lhs.type
  | icmp _ _ lhs rhs => lhs.Typed Γ ∧ rhs.Typed Γ ∧ lhs.type = rhs.type ∧ lhs.type.isInteger
  | fcmp _ _ lhs rhs => lhs.Typed Γ ∧ rhs.Typed Γ ∧ lhs.type = rhs.type ∧ lhs.type.isFloating
  | cast _ op value type => value.Typed Γ ∧ op.accepts value.type type
  | call _ type callee args =>
    type ≠ .void ∧ (∀ v ∈ args, v.Typed Γ) ∧ ⟨callee, args.map (·.type), type⟩ ∈ Γ.functions
  | callVoid callee args => (∀ v ∈ args, v.Typed Γ) ∧ ⟨callee, args.map (·.type), .void⟩ ∈ Γ.functions
  | print _ index format value =>
    value.Typed Γ ∧ Γ.formats[index]? = some format ∧ (format.text, value.type) ∈ PrintFormat.types

theorem Typed.mono {Γ Γ' : Typing} {i : Inst} (h : i.Typed Γ) (hle : Γ.Le Γ') : i.Typed Γ' := by
  cases i with
  | alloca => exact h
  | store => exact ⟨hle.slots h.1, h.2.1.mono hle, h.2.2⟩
  | load => exact hle.slots h
  | arith dst op lhs rhs | icmp dst pred lhs rhs | fcmp dst pred lhs rhs => exact ⟨h.1.mono hle, h.2.1.mono hle, h.2.2⟩
  | cast => exact ⟨h.1.mono hle, h.2⟩
  | call => exact ⟨h.1, fun v hv => (h.2.1 v hv).mono hle, hle.functions ▸ h.2.2⟩
  | callVoid => exact ⟨fun v hv => (h.1 v hv).mono hle, hle.functions ▸ h.2⟩
  | print =>
    refine ⟨h.1.mono hle, ?_, h.2.2⟩
    obtain ⟨hindex, hformat⟩ := List.getElem?_eq_some_iff.1 h.2.1
    rw [List.IsPrefix.getElem hle.formats hindex] at hformat
    exact List.getElem?_eq_some_iff.2 ⟨_, hformat⟩

end Inst

/-- Whether the end of a block is in order. A function without a result returns nothing, any other one a value of
    its type. -/
def Terminator.Typed (Γ : Typing) : Terminator → Prop
  | br _ | unreachable => True
  | condBr cond _ _ => cond.Typed Γ ∧ cond.type = .i1
  | ret value => value.Typed Γ ∧ value.type = Γ.result
  | retVoid => Γ.result = .void

theorem Terminator.Typed.mono {Γ Γ' : Typing} {t : Terminator} (h : t.Typed Γ) (hle : Γ.Le Γ') : t.Typed Γ' := by
  cases t with
  | br => trivial
  | condBr => exact ⟨h.1.mono hle, h.2⟩
  | ret => exact ⟨h.1.mono hle, h.2.trans hle.result.symm⟩
  | retVoid => exact hle.result.trans h
  | unreachable => trivial

namespace IrFunction

def signature (f : IrFunction) : Signature :=
  ⟨f.name, f.params.map (·.type), f.result⟩

def insts (f : IrFunction) : List Inst :=
  f.blocks.flatMap (·.insts)

/-- What the code of a function of the module can refer to. -/
def typing (m : IrModule) (f : IrFunction) : Typing where
  params := f.params
  registers := f.insts.filterMap (·.register?)
  slots := f.insts.filterMap (·.slot?)
  formats := m.formats
  functions := m.functions.map (·.signature)
  result := f.result

/-- Whether the code of a function is in order. No register gets its value in two places and no two slots have one
    name, so each has one type. -/
structure Typed (m : IrModule) (f : IrFunction) : Prop where
  insts : ∀ i ∈ f.insts, i.Typed (f.typing m)
  terms : ∀ b ∈ f.blocks, b.term.Typed (f.typing m)
  registers : ((f.typing m).registers.map (·.1)).Nodup
  slots : ((f.typing m).slots.map (·.name)).Nodup

end IrFunction

/-- Whether the code of a module is in order. No two functions have one name. -/
structure IrModule.Typed (m : IrModule) : Prop where
  functions : ∀ f ∈ m.functions, f.Typed m
  names : (m.functions.map (·.name)).Nodup

end LocLang
