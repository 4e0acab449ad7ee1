import LocLang.Lowering.Draft
import LocLang.Number.Word
import LocLang.Tree.Literal
import LocLang.Tree.Operator

namespace LocLang

namespace Constant

/-- The constant of a type for a number that is `n` as an integer and `x` as a float. -/
def ofNumber (type : MachineTy) (n : Int) (x : Double) : Constant :=
  match type with
  | .i1 => ofBool (!x.isZero)
  | .float => float .float x.toSingle
  | .double => float .double x
  | .i64 => int .i64 n
  | .i32 | .void => int .i32 (Number.wrapInt32 n)

/-- The constant of another type with the same value, as far as that type has it. -/
def fold (c : Constant) (type : MachineTy) : Constant :=
  match c with
  | int _ n => ofNumber type n (.ofInt n)
  | float _ x => ofNumber type x.toInt64 x

def zero (type : MachineTy) : Constant :=
  ofNumber type 0 (.ofInt 0)

/-- The value of a literal in code. An integer has 32 bits if it fits. -/
def ofLiteral : Literal → Constant
  | .int n => if Literal.fitsInt32 n then int .i32 n else int .i64 n
  | .float x => float .double x
  | .bool b => ofBool b

end Constant

/-- The value of an expression that has none. -/
def Operand.nothing : Operand :=
  .const (.zero .i32)

/-- An instruction that converts a value to another type. To a truth value it compares with zero. -/
inductive Conversion where
  | notZero
  | notZeroFloat
  | cast (op : CastOp)
deriving DecidableEq, Repr

def Conversion.between (source target : MachineTy) : Conversion :=
  if target = .i1 then
    if source.isFloating then notZeroFloat else notZero
  else if source = .i1 then
    if target.isFloating then cast .uitofp else cast .zext
  else if source.isFloating then
    if target.isFloating then
      if source.size < target.size then cast .fpext else cast .fptrunc
    else cast .fptosi
  else if target.isFloating then cast .sitofp
  else if source.size < target.size then cast .sext
  else cast .trunc

def Conversion.inst (c : Conversion) (value : Operand) (target : MachineTy) (dst : Nat) : Inst :=
  match c with
  | notZero => .icmp dst .ne value (.const (.int value.type 0))
  | notZeroFloat => .fcmp dst .one value (.const (.float value.type (.ofInt 0)))
  | cast op => .cast dst op value target

/-- The operation of an operator: arithmetic in the operands' type, or a comparison. -/
def BinaryOp.inst (op : BinaryOp) (floating : Bool) (lhs rhs : Operand) (dst : Nat) : Inst :=
  match op, floating with
  | add, false => .arith dst .add lhs rhs
  | add, true => .arith dst .fadd lhs rhs
  | sub, false => .arith dst .sub lhs rhs
  | sub, true => .arith dst .fsub lhs rhs
  | mul, false => .arith dst .mul lhs rhs
  | mul, true => .arith dst .fmul lhs rhs
  | div, false => .arith dst .sdiv lhs rhs
  | div, true => .arith dst .fdiv lhs rhs
  | eq, false => .icmp dst .eq lhs rhs
  | eq, true => .fcmp dst .oeq lhs rhs
  | ne, false => .icmp dst .ne lhs rhs
  | ne, true => .fcmp dst .one lhs rhs
  | lt, false => .icmp dst .slt lhs rhs
  | lt, true => .fcmp dst .olt lhs rhs
  | gt, false => .icmp dst .sgt lhs rhs
  | gt, true => .fcmp dst .ogt lhs rhs
  | le, false => .icmp dst .sle lhs rhs
  | le, true => .fcmp dst .ole lhs rhs
  | ge, false => .icmp dst .sge lhs rhs
  | ge, true => .fcmp dst .oge lhs rhs

/-- The type that both operands of an operator are converted to: the wider one, but no arithmetic is done on truth
    values. -/
def BinaryOp.operandType (op : BinaryOp) (lhs rhs : MachineTy) : MachineTy :=
  let type := lhs.wider rhs
  if type = .i1 ∧ ¬op.isComparison then .i32 else type

def BinaryOp.resultType (op : BinaryOp) (operands : MachineTy) : MachineTy :=
  if op.isComparison then .i1 else operands

namespace Lower

/-- The value in another type. Nothing is converted to no value. -/
def convert (v : Operand) (type : MachineTy) : Lower Operand :=
  if v.type = type ∨ type = .void then
    pure v
  else
    match v with
    | .const c => pure (.const (c.fold type))
    | v => do
      let conversion := Conversion.between v.type type
      emitValue type (conversion.inst v type)

def operate (op : BinaryOp) (type : MachineTy) (lhs rhs : Operand) : Lower Operand :=
  emitValue (op.resultType type) (op.inst type.isFloating lhs rhs)

def binary (op : BinaryOp) (lhs rhs : Operand) : Lower Operand := do
  let type := op.operandType lhs.type rhs.type
  let lhs ← convert lhs type
  let rhs ← convert rhs type
  operate op type lhs rhs

/-- Prints a value on a line. -/
def print (v : Operand) : Lower Unit := do
  let (format, type) :=
    match v.type with
    | .i64 => (PrintFormat.int64, MachineTy.i64)
    | .float | .double => (.float64, .double)
    | .i1 | .i32 | .void => (.int32, .i32)
  let v ← convert v type
  let _ ← runtimeFunction "printf"
  let index ← formatIndex format
  let _ ← emitValue .i32 fun dst => .print dst index format v

end Lower

end LocLang
