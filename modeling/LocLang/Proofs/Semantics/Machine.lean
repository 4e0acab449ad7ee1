import LocLang.Ir
import LocLang.Proofs.Semantics.Value

namespace LocLang

structure MachineWord where
  width : Nat
  bits : BitVec width
deriving DecidableEq, Repr

def MachineWord.pair? (a b : MachineWord) : Option ((width : Nat) × BitVec width × BitVec width) :=
  if h : b.width = a.width then some ⟨a.width, a.bits, b.bits.cast h⟩ else none

/-- What instructions on floats do to the words that stand for them. A conversion can be undefined. -/
structure FloatUnit where
  constant (type : MachineTy) (value : Double) : BitVec type.size
  arith {width : Nat} (op : ArithOp) (a b : BitVec width) : BitVec width
  compare {width : Nat} (pred : FloatPredicate) (a b : BitVec width) : Bool
  cast {width : Nat} (op : CastOp) (a : BitVec width) (target : Nat) : Option (BitVec target)
  line {width : Nat} (a : BitVec width) : String

/-- What a machine runs on: the functions that can be called, and what it does with floats. -/
structure Platform where
  functions : List IrFunction
  floats : FloatUnit

/-- Arithmetic on words. A quotient is undefined if the divisor is zero or the word cannot hold it. -/
def ArithOp.run {width : Nat} (platform : Platform) (op : ArithOp) (a b : BitVec width) :
    Except (Ending MachineWord) (BitVec width) :=
  match op with
  | add => .ok (a + b)
  | sub => .ok (a - b)
  | mul => .ok (a * b)
  | sdiv => if b = 0 ∨ a = BitVec.intMin width ∧ b = -1 then .error .undefined else .ok (a.sdiv b)
  | fadd | fsub | fmul | fdiv => .ok (platform.floats.arith op a b)

def IntPredicate.holds {width : Nat} (p : IntPredicate) (a b : BitVec width) : Bool :=
  match p with
  | eq => a == b
  | ne => a != b
  | slt => a.slt b
  | sgt => b.slt a
  | sle => a.sle b
  | sge => b.sle a

/-- The bits of a word in another width. -/
def CastOp.run {width : Nat} (platform : Platform) (op : CastOp) (a : BitVec width) (target : Nat) :
    Except (Ending MachineWord) (BitVec target) :=
  match op with
  | sext => .ok (a.signExtend target)
  | zext | trunc => .ok (a.setWidth target)
  | fpext | fptrunc | sitofp | uitofp | fptosi => (platform.floats.cast op a target).elim (.error .undefined) .ok

/-- The line that is printed for a word. -/
def PrintFormat.line {width : Nat} (platform : Platform) (format : PrintFormat) (a : BitVec width) : String :=
  match format with
  | int32 | int64 => toString a.toInt
  | float64 => platform.floats.line a

/-- A function that is running. -/
structure Activation where
  code : List IrBlock
  args : List (String × MachineWord)
  registers : Nat → Option MachineWord := fun _ => none
  /-- The slots that exist, with what they hold once something is stored there. -/
  memory : SlotName → Option (Option MachineWord) := fun _ => none
  /-- What is left of the block. -/
  insts : List Inst
  term : Terminator

namespace Activation

/-- The function with the given blocks at the start of one of them. -/
def enter (code : List IrBlock) (args : List (String × MachineWord)) (b : IrBlock) : Activation where
  code := code
  args := args
  insts := b.insts
  term := b.term

def read (platform : Platform) (f : Activation) : Operand → Except (Ending MachineWord) MachineWord
  | .const (.int type n) => .ok ⟨type.size, .ofInt _ n⟩
  | .const (.float type x) => .ok ⟨type.size, platform.floats.constant type x⟩
  | .param name _ => (f.args.lookup name).elim (.error .stuck) .ok
  | .reg i _ => (f.registers i).elim (.error .stuck) .ok

def readAll (platform : Platform) (f : Activation) : List Operand → Except (Ending MachineWord) (List MachineWord)
  | [] => .ok []
  | v :: vs => do
    let w ← f.read platform v
    return w :: (← f.readAll platform vs)

def set (f : Activation) (dst : Nat) (w : MachineWord) : Activation :=
  { f with registers := fun i => if i = dst then some w else f.registers i }

def allocate (f : Activation) (slot : SlotName) : Activation :=
  { f with memory := fun s => if s = slot then some none else f.memory s }

def store (f : Activation) (slot : SlotName) (w : MachineWord) : Except (Ending MachineWord) Activation :=
  match f.memory slot with
  | some _ => .ok { f with memory := fun s => if s = slot then some (some w) else f.memory s }
  | none => .error .stuck

def load (f : Activation) (slot : SlotName) : Except (Ending MachineWord) MachineWord :=
  match f.memory slot with
  | some (some w) => .ok w
  | some none | none => .error .stuck

def jump (f : Activation) (label : Label) : Except (Ending MachineWord) Activation :=
  match f.code.find? (·.label = label) with
  | some b => .ok { f with insts := b.insts, term := b.term }
  | none => .error .stuck

end Activation

/-- A run of a module: the function that is running, and those that wait for it with the register for its value. -/
structure Machine where
  top : Activation
  callers : List (Option Nat × Activation) := []
  output : List String := []

namespace Machine

def set (m : Machine) (dst : Nat) (w : MachineWord) : Machine :=
  { m with top := m.top.set dst w }

/-- The start of a function. -/
def activate (platform : Platform) (name : String) (args : List MachineWord) : Except (Ending MachineWord) Activation :=
  match platform.functions.find? (·.name = name) with
  | none => .error .stuck
  | some f =>
    match f.blocks with
    | [] => .error .stuck
    | first :: _ =>
      if f.params.length = args.length then .ok (.enter f.blocks ((f.params.map (·.name)).zip args) first)
      else .error .stuck

/-- Executes an instruction that stands before what is left. -/
def execute (platform : Platform) (m : Machine) : Inst → Except (Ending MachineWord) Machine
  | .alloca slot => .ok { m with top := m.top.allocate slot.name }
  | .store value slot => do
    let w ← m.top.read platform value
    let top ← m.top.store slot.name w
    return { m with top }
  | .load dst slot => do
    let w ← m.top.load slot.name
    return m.set dst w
  | .arith dst op lhs rhs => do
    let a ← m.top.read platform lhs
    let b ← m.top.read platform rhs
    match a.pair? b with
    | none => .error .stuck
    | some ⟨width, x, y⟩ => do
      let z ← op.run platform x y
      return m.set dst ⟨width, z⟩
  | .icmp dst pred lhs rhs => do
    let a ← m.top.read platform lhs
    let b ← m.top.read platform rhs
    match a.pair? b with
    | none => .error .stuck
    | some ⟨_, x, y⟩ => return m.set dst ⟨1, .ofBool (pred.holds x y)⟩
  | .fcmp dst pred lhs rhs => do
    let a ← m.top.read platform lhs
    let b ← m.top.read platform rhs
    match a.pair? b with
    | none => .error .stuck
    | some ⟨_, x, y⟩ => return m.set dst ⟨1, .ofBool (platform.floats.compare pred x y)⟩
  | .cast dst op value type => do
    let a ← m.top.read platform value
    let b ← op.run platform a.bits type.size
    return m.set dst ⟨type.size, b⟩
  | .call dst _ callee args => do
    let args ← m.top.readAll platform args
    let top ← activate platform callee args
    return { m with top, callers := (some dst, m.top) :: m.callers }
  | .callVoid callee args => do
    let args ← m.top.readAll platform args
    let top ← activate platform callee args
    return { m with top, callers := (none, m.top) :: m.callers }
  | .print dst _ format value => do
    let a ← m.top.read platform value
    let line := format.line platform a.bits
    -- Printing gives the number of characters printed.
    return { m.set dst ⟨32, .ofNat _ (line.length + 1)⟩ with output := m.output ++ [line] }

/-- Goes back to the caller. -/
def leave (m : Machine) (value : Option MachineWord) : Except (Ending MachineWord) Machine :=
  match m.callers, value with
  | [], value => .error (.returned value)
  | (some dst, caller) :: callers, some w => .ok { m with top := caller.set dst w, callers }
  | (none, caller) :: callers, none => .ok { m with top := caller, callers }
  | (some _, _) :: _, none | (none, _) :: _, some _ => .error .stuck

def finish (platform : Platform) (m : Machine) : Terminator → Except (Ending MachineWord) Machine
  | .br target => do
    let top ← m.top.jump target
    return { m with top }
  | .condBr cond ifTrue ifFalse => do
    let w ← m.top.read platform cond
    let top ← m.top.jump (if w.bits.toNat = 1 then ifTrue else ifFalse)
    return { m with top }
  | .ret value => do
    let w ← m.top.read platform value
    m.leave (some w)
  | .retVoid => m.leave none
  | .unreachable => .error .undefined

def step (platform : Platform) (m : Machine) : Except (Ending MachineWord) Machine :=
  match m.top.insts with
  | i :: rest => execute platform { m with top := { m.top with insts := rest } } i
  | [] => m.finish platform m.top.term

/-- The end of a run and what it has printed, if it ends within the given number of steps. -/
def run (platform : Platform) : Nat → Machine → Option (Ending MachineWord × List String)
  | 0, _ => none
  | n + 1, m =>
    match m.step platform with
    | .error ending => some (ending, m.output)
    | .ok m => run platform n m

end Machine

/-- The end of a call of a function and what it has printed, if it ends within the given number of steps. -/
def IrModule.run (m : IrModule) (floats : FloatUnit) (name : String) (args : List MachineWord) (steps : Nat) :
    Option (Ending MachineWord × List String) :=
  match Machine.activate ⟨m.functions, floats⟩ name args with
  | .error ending => some (ending, [])
  | .ok top => Machine.run ⟨m.functions, floats⟩ steps { top }

end LocLang
