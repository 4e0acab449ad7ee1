import LocLang.Modes
import LocLang.Tree.TypeLabel
import LocLang.Tree.Pattern
import LocLang.Tree.Operator

namespace LocLang

mutual

/-- Expressions. An assignment is an expression, with the stored value as its value. -/
inductive Expr (μ : Type) where
  | literal (span : Span) (value : Literal)
  | ident (span : Span) (name : String)
  | variant (span : Span) (enumName variant : String)
  | binary (span : Span) (op : BinaryOp) (lhs rhs : Expr μ)
  | assign (span : Span) (target rhs : Expr μ)
  | call (span : Span) (callee : Expr μ) (args : List (Expr μ))
  | paren (span : Span) (inner : Expr μ)
  | select (m : Match μ)

/-- A match of a value against the patterns of its arms. -/
inductive Match (μ : Type) where
  | mk (span : Span) (note : μ) (scrutinee : Expr μ) (arms : List (Arm μ))

/-- One case of a match. Its outcome is a block, in statements only, or a value. -/
inductive Arm (μ : Type) where
  | block (span : Span) (pattern : Pattern) (body : Block μ)
  | value (span : Span) (pattern : Pattern) (value : Expr μ)

inductive Stmt (μ : Type) where
  | block (body : Block μ)
  | decl (span : Span) (modes : Modes) (name : String) (nameSpan : Span) (label : TypeLabel)
      (init : Option (Expr μ))
  | cond (chain : IfChain μ)
  | loop (span : Span) (condition : Expr μ) (body : Block μ)
  | select (m : Match μ)
  | ret (span : Span) (value : Option (Expr μ))
  | expr (span : Span) (value : Expr μ)

/-- A condition with its branch, and what happens otherwise: nothing, a block, or another condition. -/
inductive IfChain (μ : Type) where
  | only (span : Span) (condition : Expr μ) (body : Block μ)
  | orElse (span : Span) (condition : Expr μ) (body other : Block μ)
  | orIf (span : Span) (condition : Expr μ) (body : Block μ) (next : IfChain μ)

/-- Statements with a scope of their own. -/
inductive Block (μ : Type) where
  | mk (span : Span) (stmts : List (Stmt μ))

end

structure Param where
  span : Span
  modes : Modes
  name : String
  label : TypeLabel

/-- An enum with its variants in order. -/
structure EnumDef where
  span : Span
  name : String
  variants : List String

/-- A function. Without a result label it returns nothing. -/
structure FuncDef (μ : Type) where
  span : Span
  name : String
  nameSpan : Span
  params : List Param
  result : Option TypeLabel
  body : Block μ

inductive Def (μ : Type) where
  | enum (e : EnumDef)
  | func (f : FuncDef μ)

/-- The definitions of a source text in order. -/
structure Program (μ : Type) where
  defs : List (Def μ)

section Accessors

variable {μ : Type}

namespace Match

def span : Match μ → Span
  | mk span _ _ _ => span

def note : Match μ → μ
  | mk _ note _ _ => note

def scrutinee : Match μ → Expr μ
  | mk _ _ scrutinee _ => scrutinee

def arms : Match μ → List (Arm μ)
  | mk _ _ _ arms => arms

end Match

def Expr.span : Expr μ → Span
  | literal span _ => span
  | ident span _ => span
  | variant span _ _ => span
  | binary span _ _ _ => span
  | assign span _ _ => span
  | call span _ _ => span
  | paren span _ => span
  | select m => m.span

def Arm.span : Arm μ → Span
  | block span _ _ => span
  | value span _ _ => span

def Arm.pattern : Arm μ → Pattern
  | block _ pattern _ => pattern
  | value _ pattern _ => pattern

def Block.span : Block μ → Span
  | mk span _ => span

def Block.stmts : Block μ → List (Stmt μ)
  | mk _ stmts => stmts

def IfChain.span : IfChain μ → Span
  | only span _ _ => span
  | orElse span _ _ _ => span
  | orIf span _ _ _ => span

def Stmt.span : Stmt μ → Span
  | block body => body.span
  | decl span _ _ _ _ _ => span
  | cond chain => chain.span
  | loop span _ _ => span
  | select m => m.span
  | ret span _ => span
  | expr span _ => span

def Program.funcs (p : Program μ) : List (FuncDef μ) :=
  p.defs.filterMap fun
    | .func f => some f
    | .enum _ => none

def Program.enums (p : Program μ) : List EnumDef :=
  p.defs.filterMap fun
    | .func _ => none
    | .enum e => some e

end Accessors

end LocLang
