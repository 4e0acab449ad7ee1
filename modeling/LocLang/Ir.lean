import LocLang.Ty
import LocLang.Number.Double

namespace LocLang

inductive MachineTy where
  | i1
  | i32
  | i64
  | float
  | double
  | void
deriving DecidableEq, Repr, Inhabited

def Ty.machine : Ty → MachineTy
  | .unknown | .int32 => .i32
  | .int64 => .i64
  | .float32 => .float
  | .float64 => .double
  | .bool => .i1
  | .void => .void

namespace MachineTy

/-- The type of the values that a type of code represents. -/
def ty : MachineTy → Ty
  | i1 => .bool
  | i32 => .int32
  | i64 => .int64
  | float => .float32
  | double => .float64
  | void => .void

def text : MachineTy → String
  | i1 => "i1"
  | i32 => "i32"
  | i64 => "i64"
  | float => "float"
  | double => "double"
  | void => "void"

def isFloating (t : MachineTy) : Bool :=
  t.ty.isFloating

def size (t : MachineTy) : Nat :=
  t.ty.size

def wider (a b : MachineTy) : MachineTy :=
  (a.ty.wider b.ty).machine

end MachineTy

/-- A constant. A truth value is the integer 0 or 1 of one bit. -/
inductive Constant where
  | int (type : MachineTy) (value : Int)
  | float (type : MachineTy) (value : Double)
deriving DecidableEq, Repr, Inhabited

def Constant.type : Constant → MachineTy
  | int type _ => type
  | float type _ => type

def Constant.ofBool (b : Bool) : Constant :=
  int .i1 (if b then 1 else 0)

inductive Operand where
  | const (c : Constant)
  | param (name : String) (type : MachineTy)
  | reg (index : Nat) (type : MachineTy)
deriving DecidableEq, Repr, Inhabited

def Operand.type : Operand → MachineTy
  | const c => c.type
  | param _ type => type
  | reg _ type => type

/-- What a memory slot is for. -/
inductive SlotName where
  /-- A variable; the index tells apart variables of one name. -/
  | named (name : String) (index : Nat)
  /-- The value of the match with the given number. -/
  | result (number : Nat)
deriving DecidableEq, Repr

def SlotName.text : SlotName → String
  | named name index => name ++ "." ++ toString index
  | result number => "match.result." ++ toString number

/-- A memory slot and the type of the values that it holds. -/
structure Slot where
  name : SlotName
  type : MachineTy
deriving DecidableEq, Repr

/-- The name of a block. All but the first one of a function belong to a numbered construct; the tests and arms
    of a match are counted too. -/
inductive Label where
  | entry
  | ifThen (n : Nat)
  | ifElse (n : Nat)
  | ifEnd (n : Nat)
  | whileCond (n : Nat)
  | whileBody (n : Nat)
  | whileEnd (n : Nat)
  | matchTest (n k : Nat)
  | matchArm (n k : Nat)
  | matchFail (n : Nat)
  | matchEnd (n : Nat)
deriving DecidableEq, Repr, Inhabited

def Label.text : Label → String
  | entry => "entry"
  | ifThen n => "if.then." ++ toString n
  | ifElse n => "if.else." ++ toString n
  | ifEnd n => "if.end." ++ toString n
  | whileCond n => "while.cond." ++ toString n
  | whileBody n => "while.body." ++ toString n
  | whileEnd n => "while.end." ++ toString n
  | matchTest n k => "match.test." ++ toString n ++ "." ++ toString k
  | matchArm n k => "match.arm." ++ toString n ++ "." ++ toString k
  | matchFail n => "match.fail." ++ toString n
  | matchEnd n => "match.end." ++ toString n

/-- Arithmetic on two values of one type. -/
inductive ArithOp where
  | add | sub | mul | sdiv
  | fadd | fsub | fmul | fdiv
deriving DecidableEq, Repr

def ArithOp.text : ArithOp → String
  | add => "add" | sub => "sub" | mul => "mul" | sdiv => "sdiv"
  | fadd => "fadd" | fsub => "fsub" | fmul => "fmul" | fdiv => "fdiv"

/-- Comparisons of integers; the order is that of signed integers. -/
inductive IntPredicate where
  | eq | ne | slt | sgt | sle | sge
deriving DecidableEq, Repr

def IntPredicate.text : IntPredicate → String
  | eq => "eq" | ne => "ne" | slt => "slt" | sgt => "sgt" | sle => "sle" | sge => "sge"

/-- Comparisons of floats; none holds of a number that is not comparable. -/
inductive FloatPredicate where
  | oeq | one | olt | ogt | ole | oge
deriving DecidableEq, Repr

def FloatPredicate.text : FloatPredicate → String
  | oeq => "oeq" | one => "one" | olt => "olt" | ogt => "ogt" | ole => "ole" | oge => "oge"

inductive CastOp where
  | sext | zext | trunc | fpext | fptrunc | sitofp | uitofp | fptosi
deriving DecidableEq, Repr

def CastOp.text : CastOp → String
  | sext => "sext" | zext => "zext" | trunc => "trunc" | fpext => "fpext" | fptrunc => "fptrunc"
  | sitofp => "sitofp" | uitofp => "uitofp" | fptosi => "fptosi"

/-- How a value is printed on a line of its own. -/
inductive PrintFormat where
  | int32
  | int64
  | float64
deriving DecidableEq, Repr

/-- The format as characters, without the one that ends it. -/
def PrintFormat.text : PrintFormat → String
  | int32 => "%d\n"
  | int64 => "%ld\n"
  | float64 => "%f\n"

/-- The instructions. One that gives a value has a register for it, also if nobody uses it. -/
inductive Inst where
  | alloca (slot : Slot)
  | store (value : Operand) (slot : Slot)
  | load (dst : Nat) (slot : Slot)
  | arith (dst : Nat) (op : ArithOp) (lhs rhs : Operand)
  | icmp (dst : Nat) (pred : IntPredicate) (lhs rhs : Operand)
  | fcmp (dst : Nat) (pred : FloatPredicate) (lhs rhs : Operand)
  | cast (dst : Nat) (op : CastOp) (value : Operand) (type : MachineTy)
  /-- A call of a function that returns a value. -/
  | call (dst : Nat) (type : MachineTy) (callee : String) (args : List Operand)
  /-- A call of a function that returns nothing. -/
  | callVoid (callee : String) (args : List Operand)
  /-- Prints a value in the format with the given number. -/
  | print (dst : Nat) (index : Nat) (format : PrintFormat) (value : Operand)
deriving DecidableEq, Repr

inductive Terminator where
  | br (target : Label)
  | condBr (cond : Operand) (ifTrue ifFalse : Label)
  | ret (value : Operand)
  | retVoid
  | unreachable
deriving DecidableEq, Repr

/-- The blocks that may follow. -/
def Terminator.targets : Terminator → List Label
  | br target => [target]
  | condBr _ ifTrue ifFalse => [ifTrue, ifFalse]
  | ret _ | retVoid | unreachable => []

structure IrBlock where
  label : Label
  insts : List Inst
  term : Terminator
deriving DecidableEq, Repr

structure IrParam where
  name : String
  type : MachineTy
deriving DecidableEq, Repr

structure IrFunction where
  name : String
  result : MachineTy
  params : List IrParam
  blocks : List IrBlock
deriving DecidableEq, Repr

/-- A function that code calls and another module defines. Types are spelled out, as some of them are types that
    values never have. -/
structure Declaration where
  name : String
  result : String
  params : List String
  variadic : Bool := false
deriving DecidableEq, Repr

/-- The functions that every module declares. -/
def Declaration.runtime : List Declaration :=
  [{ name := "printf", result := "i32", params := ["i8*"], variadic := true },
   { name := "puts", result := "i32", params := ["i8*"] },
   { name := "malloc", result := "noalias i8*", params := ["i64"] },
   { name := "free", result := "void", params := ["i8*"] }]

/-- What a module says about itself; an empty text is left out. -/
structure Target where
  sourceName : String := ""
  layout : String := "e-m:e-p270:32:32-p271:32:32-p272:64:64-i64:64-f80:128-n8:16:32:64-S128"
  triple : String := "x86_64-pc-linux-gnu"
deriving DecidableEq, Repr

/-- A module of code. The formats are numbered in the order of their first use. -/
structure IrModule where
  target : Target
  formats : List PrintFormat
  declarations : List Declaration
  functions : List IrFunction
deriving DecidableEq, Repr

end LocLang
