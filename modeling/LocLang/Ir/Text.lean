import LocLang.Ir
import LocLang.Number.Numeral
import LocLang.Text.Quoted

namespace LocLang

open Text (quoted nameText)

def Constant.text : Constant → String
  | int .i1 value => if value = 0 then "false" else "true"
  | int _ value => Number.integerText value
  | float .float value => Number.floatText .single value
  | float _ value => Number.floatText .double value

def Operand.text : Operand → String
  | const c => c.text
  | param name _ => "%" ++ nameText name
  | reg index _ => "%" ++ toString index

/-- A value after its type. -/
def Operand.typed (v : Operand) : String :=
  v.type.text ++ " " ++ v.text

def Slot.text (s : Slot) : String :=
  "%" ++ nameText s.name.text

/-- A slot after the type of its address. -/
def Slot.typed (s : Slot) : String :=
  s.type.text ++ "* " ++ s.text

def commas (texts : List String) : String :=
  ", ".intercalate texts

/-- The type of the characters of a format. -/
def PrintFormat.arrayType (f : PrintFormat) : String :=
  "[" ++ toString (f.text.length + 1) ++ " x i8]"

def formatName (index : Nat) : String :=
  "@fmt." ++ toString index

def PrintFormat.definition (f : PrintFormat) (index : Nat) : String :=
  formatName index ++ " = private constant " ++ f.arrayType ++ " c" ++ quoted (f.text ++ "\x00")

/-- The address of the first character of a format. -/
def PrintFormat.address (f : PrintFormat) (index : Nat) : String :=
  "i8* getelementptr (" ++ f.arrayType ++ ", " ++ f.arrayType ++ "* " ++ formatName index ++
    ", i64 0, i64 0)"

/-- The start of an instruction that gives a value. -/
def assignText (dst : Nat) (text : String) : String :=
  "%" ++ toString dst ++ " = " ++ text

def callText (type : MachineTy) (callee : String) (args : List Operand) : String :=
  "call " ++ type.text ++ " @" ++ nameText callee ++ "(" ++ commas (args.map (·.typed)) ++ ")"

def Inst.text : Inst → String
  | alloca slot => slot.text ++ " = alloca " ++ slot.type.text
  | store value slot => "store " ++ value.typed ++ ", " ++ slot.typed
  | load dst slot => assignText dst ("load " ++ slot.type.text ++ ", " ++ slot.typed)
  | arith dst op lhs rhs => assignText dst (op.text ++ " " ++ lhs.typed ++ ", " ++ rhs.text)
  | icmp dst pred lhs rhs => assignText dst ("icmp " ++ pred.text ++ " " ++ lhs.typed ++ ", " ++ rhs.text)
  | fcmp dst pred lhs rhs => assignText dst ("fcmp " ++ pred.text ++ " " ++ lhs.typed ++ ", " ++ rhs.text)
  | cast dst op value type => assignText dst (op.text ++ " " ++ value.typed ++ " to " ++ type.text)
  | call dst type callee args => assignText dst (callText type callee args)
  | callVoid callee args => callText .void callee args
  | print dst index format value =>
    assignText dst
      ("call i32 (i8*, ...) @printf(" ++ commas [format.address index, value.typed] ++ ")")

def Label.target (l : Label) : String :=
  "label %" ++ l.text

def Terminator.text : Terminator → String
  | br target => "br " ++ target.target
  | condBr cond ifTrue ifFalse => "br " ++ commas [cond.typed, ifTrue.target, ifFalse.target]
  | ret value => "ret " ++ value.typed
  | retVoid => "ret void"
  | unreachable => "unreachable"

def IrBlock.lines (b : IrBlock) : List String :=
  (b.label.text ++ ":") :: (b.insts.map (·.text) ++ [b.term.text]).map ("\t" ++ ·)

def IrParam.text (p : IrParam) : String :=
  p.type.text ++ " %" ++ nameText p.name

/-- Groups of lines with an empty line between them. -/
def paragraphs (groups : List (List String)) : List String :=
  [""].intercalate groups

def IrFunction.lines (f : IrFunction) : List String :=
  ["define " ++ f.result.text ++ " @" ++ nameText f.name ++ "(" ++ commas (f.params.map (·.text)) ++ ") \x7b"]
    ++ paragraphs (f.blocks.map (·.lines)) ++ ["\x7d"]

/-- A declaration; its parameters are numbered. -/
def Declaration.line (d : Declaration) : String :=
  let params := d.params.mapIdx fun i type => type ++ " %" ++ toString i
  "declare " ++ d.result ++ " @" ++ nameText d.name ++ "(" ++
    commas (params ++ if d.variadic then ["..."] else []) ++ ")"

/-- The lines about the target that are not left out. -/
def Target.lines (t : Target) : List String :=
  [("source_filename", t.sourceName), ("target datalayout", t.layout), ("target triple", t.triple)].filterMap
    fun (key, value) => if value = "" then none else some (key ++ " = " ++ quoted value)

def IrModule.header : String :=
  "; Generated LLVM IR for Locus program"

/-- The lines of a module. Between the target, the formats, and each of the functions stands an empty line. -/
def IrModule.lines (m : IrModule) : List String :=
  let formats := m.formats.mapIdx fun i f => f.definition i
  let groups := [m.target.lines, formats].filter (!·.isEmpty)
  header :: paragraphs
    (groups ++ m.declarations.map (fun d => [d.line]) ++ m.functions.map (·.lines))

def IrModule.text (m : IrModule) : String :=
  String.join (m.lines.map (· ++ "\n"))

end LocLang
