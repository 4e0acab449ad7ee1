import LocLang.Ir
import LocLang.Scope

namespace LocLang

/-- Why lowering cannot go on. None of this happens to a program that the analysis accepts. -/
inductive Fault where
  | unboundName (name : String)
  | unknownVariant (enumName variant : String)
  /-- The function has no entry among the functions of the analysis, or one with fewer parameters. -/
  | undeclaredFunction (name : String)
  | functionAsValue (name : String)
  | assignedExpression
  | assignedRegister (name : String)
  | calledExpression
  | calledValue (name : String)
  | surplusArgument (name : String)
  | nothingToPrint
  | missingRuntime (name : String)
  /-- Code where no block is open. -/
  | noOpenBlock
  /-- A block where another one is still open. -/
  | openBlock (label : Label)
deriving DecidableEq, Repr

def Fault.message : Fault → String
  | unboundName name => s!"no value bound to `{name}` during code generation"
  | unknownVariant enumName variant => s!"unknown variant `{enumName}.{variant}` during code generation"
  | undeclaredFunction name => s!"no signature for `{name}` during code generation"
  | functionAsValue name => s!"function `{name}` as a value reached code generation"
  | assignedExpression => "assignment to an expression reached code generation"
  | assignedRegister name => s!"assignment to register `{name}` reached code generation"
  | calledExpression => "call of an expression reached code generation"
  | calledValue name => s!"call of value `{name}` reached code generation"
  | surplusArgument name => s!"surplus argument of `{name}` reached code generation"
  | nothingToPrint => "nothing to print during code generation"
  | missingRuntime name => s!"missing runtime declaration for `{name}`"
  | noOpenBlock => "no open block during code generation"
  | openBlock label => "block `" ++ label.text ++ "` still open during code generation"

/-- The types of a function's parameters and of what it returns. -/
structure Signature where
  name : String
  params : List MachineTy
  result : MachineTy
deriving DecidableEq, Repr

/-- What a name refers to in code. -/
inductive Binding where
  /-- A variable in memory. -/
  | slot (s : Slot)
  /-- A value that never changes. -/
  | value (v : Operand)
  | function (s : Signature)
deriving DecidableEq, Repr

structure OpenBlock where
  label : Label
  insts : List Inst := []
deriving DecidableEq, Repr

def OpenBlock.close (b : OpenBlock) (t : Terminator) : IrBlock :=
  ⟨b.label, b.insts, t⟩

/-- A module under construction, and in it a function. -/
structure Draft where
  scopes : Scopes Binding
  /-- The formats used so far in the module. -/
  formats : List PrintFormat := []
  /-- How many constructs of the module have a number. -/
  labels : Nat := 0
  /-- How many registers of the function are in use. -/
  registers : Nat := 0
  /-- The slots of the function, in the order of creation. -/
  slots : List Slot := []
  closed : List IrBlock := []
  current : Option OpenBlock := none
deriving DecidableEq, Repr

/-- The instructions of the first block of a function, with the number of the slots that stand at their start. -/
structure EntryInsts where
  insts : List Inst := []
  slots : Nat := 0
deriving DecidableEq, Repr

/-- Puts a slot behind those that are there, before all other instructions. -/
def EntryInsts.allocate (e : EntryInsts) (slot : Slot) : EntryInsts where
  insts := e.insts.take e.slots ++ .alloca slot :: e.insts.drop e.slots
  slots := e.slots + 1

/-- The blocks of the function; its slots are put into the first one. -/
def Draft.finished (d : Draft) : List IrBlock :=
  match d.closed with
  | [] => []
  | first :: others => { first with insts := (d.slots.foldl EntryInsts.allocate ⟨first.insts, 0⟩).insts } :: others

abbrev Lower := StateT Draft (Except Fault)

namespace Lower

def fault {α : Type} (f : Fault) : Lower α :=
  throw f

def nextLabel : Lower Nat :=
  modifyGet fun d => (d.labels, { d with labels := d.labels + 1 })

def nextRegister : Lower Nat :=
  modifyGet fun d => (d.registers, { d with registers := d.registers + 1 })

/-- Adds a slot to the function. Its name may depend on how many there are. -/
def newSlot (name : Nat → SlotName) (type : MachineTy) : Lower Slot :=
  modifyGet fun d =>
    let slot : Slot := ⟨name d.slots.length, type⟩
    (slot, { d with slots := d.slots ++ [slot] })

/-- The number of a format, which is a new one at its first use. -/
def formatIndex (f : PrintFormat) : Lower Nat :=
  modifyGet fun d =>
    match d.formats.idxOf? f with
    | some i => (i, d)
    | none => (d.formats.length, { d with formats := d.formats ++ [f] })

/-- The function of the runtime with the given name, as the module declares it. -/
def runtimeFunction (name : String) : Lower Declaration :=
  match Declaration.runtime.find? (·.name = name) with
  | some declaration => pure declaration
  | none => fault (.missingRuntime name)

def emit (i : Inst) : Lower Unit := do
  let d ← get
  match d.current with
  | none => fault .noOpenBlock
  | some block => set { d with current := some { block with insts := block.insts ++ [i] } }

/-- Adds an instruction that gives a value of the type. -/
def emitValue (type : MachineTy) (inst : Nat → Inst) : Lower Operand := do
  let dst ← nextRegister
  emit (inst dst)
  return .reg dst type

def terminate (t : Terminator) : Lower Unit := do
  let d ← get
  match d.current with
  | none => fault .noOpenBlock
  | some block => set { d with closed := d.closed ++ [block.close t], current := none }

/-- Closes the block if it is still open. -/
def terminateIfOpen (t : Terminator) : Lower Unit := do
  if (← get).current.isSome then
    terminate t

def place (label : Label) : Lower Unit := do
  let d ← get
  match d.current with
  | some block => fault (.openBlock block.label)
  | none => set { d with current := some { label } }

def isOpen : Lower Bool := do
  return (← get).current.isSome

def pushScope : Lower Unit :=
  modify fun d => { d with scopes := d.scopes.push }

def popScope : Lower Unit :=
  modify fun d => { d with scopes := d.scopes.pop }

def declare (name : String) (b : Binding) : Lower Unit :=
  modify fun d => { d with scopes := d.scopes.declare name b }

def lookup (name : String) : Lower Binding := do
  match (← get).scopes.resolve? name with
  | some entry => return entry.value
  | none => fault (.unboundName name)

end Lower

end LocLang
