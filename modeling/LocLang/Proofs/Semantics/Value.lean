import LocLang.Ty
import LocLang.Tree.Literal
import LocLang.Tree.Operator

namespace LocLang

/-- Truth values and integers. -/
inductive Value where
  | bool (b : Bool)
  | int32 (n : Int32)
  | int64 (n : Int64)
deriving DecidableEq, Repr

namespace Value

def type : Value → Ty
  | bool _ => .bool
  | int32 _ => .int32
  | int64 _ => .int64

/-- The value as a number; truth is one. -/
def toInt : Value → Int
  | bool b => if b then 1 else 0
  | int32 n => n.toInt
  | int64 n => n.toInt

/-- The value of a type for a number. Of the truth values, every number but zero is the true one. -/
def ofInt (type : Ty) (n : Int) : Value :=
  match type with
  | .bool => bool (n ≠ 0)
  | .int64 => int64 (.ofInt n)
  | _ => int32 (.ofInt n)

/-- The value in another type. -/
def convert (type : Ty) (v : Value) : Value :=
  ofInt type v.toInt

/-- The value by which it is compared: truth as a word of one bit is below zero. -/
def order : Value → Int
  | bool b => if b then -1 else 0
  | int32 n => n.toInt
  | int64 n => n.toInt

/-- The value of a literal, which has 32 bits if it fits. -/
def ofLiteral? : Literal → Option Value
  | .int n => some (ofInt (if Literal.fitsInt32 n then .int32 else .int64) n)
  | .bool b => some (bool b)
  | .float _ => none

/-- The value of the variant with the given discriminant. -/
def ofDiscriminant (n : Nat) : Value :=
  ofInt .int32 n

/-- What stands for the value of something that has none. -/
def nothing : Value :=
  int32 0

/-- The line that is printed for a value. -/
def text (v : Value) : String :=
  toString v.toInt

end Value

namespace BinaryOp

/-- The type that an operator works in: that of the wider operand, but no arithmetic is done on truth values. -/
def workType (op : BinaryOp) (a b : Ty) : Ty :=
  let type := a.wider b
  if type = .bool ∧ ¬op.isComparison then .int32 else type

/-- An operator on values of one type. A quotient is undefined if the divisor is zero or the type does not have it. -/
def compute? (op : BinaryOp) (type : Ty) (a b : Value) : Option Value :=
  match op with
  | add => some (.ofInt type (a.toInt + b.toInt))
  | sub => some (.ofInt type (a.toInt - b.toInt))
  | mul => some (.ofInt type (a.toInt * b.toInt))
  | div =>
    let quotient := a.toInt.tdiv b.toInt
    if b.toInt = 0 ∨ (Value.ofInt type quotient).toInt ≠ quotient then none else some (.ofInt type quotient)
  | eq => some (.bool (a = b))
  | ne => some (.bool (a ≠ b))
  | lt => some (.bool (a.order < b.order))
  | gt => some (.bool (b.order < a.order))
  | le => some (.bool (a.order ≤ b.order))
  | ge => some (.bool (b.order ≤ a.order))

def evaluate? (op : BinaryOp) (a b : Value) : Option Value :=
  let type := op.workType a.type b.type
  op.compute? type (a.convert type) (b.convert type)

end BinaryOp

/-- How a run ends, if it does. -/
inductive Ending (α : Type) where
  | returned (value : Option α)
  /-- Nothing is said about what happens next. -/
  | undefined
  /-- There is no step that makes sense. -/
  | stuck
deriving DecidableEq, Repr

/-- The same end with another form of the value. -/
def Ending.map {α β : Type} (f : α → β) : Ending α → Ending β
  | returned value => returned (value.map f)
  | undefined => undefined
  | stuck => stuck

end LocLang
