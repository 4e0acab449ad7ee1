namespace LocLang

variable {α : Type}

/-- Something declared under a name, with the depth of the frame that it was declared in. -/
structure Scope.Entry (α : Type) where
  name : String
  depth : Nat
  value : α
deriving DecidableEq, Repr

/-- The declarations of one scope, the latest first. -/
abbrev Scope.Frame (α : Type) := List (Scope.Entry α)

/-- The latest declaration of a name in a frame. -/
def Scope.Frame.get? (frame : Scope.Frame α) (name : String) : Option (Scope.Entry α) :=
  frame.find? (·.name = name)

/-- The scopes around a place in a program: those inside the module, innermost first, and the module. -/
structure Scopes (α : Type) where
  inner : List (Scope.Frame α)
  base : Scope.Frame α
deriving DecidableEq, Repr

namespace Scopes

open Scope

def empty : Scopes α := ⟨[], []⟩

/-- How many scopes are open inside the module. -/
def depth (s : Scopes α) : Nat :=
  s.inner.length

def frames (s : Scopes α) : List (Frame α) :=
  s.inner ++ [s.base]

def push (s : Scopes α) : Scopes α :=
  { s with inner := [] :: s.inner }

/-- Closes the innermost scope. The module is never closed. -/
def pop (s : Scopes α) : Scopes α :=
  { s with inner := s.inner.tail }

/-- Closes scopes, of which the given number is open, until one of them is left. -/
def closeBlocks (s : Scopes α) : (depth : Nat) → Scopes α
  | 0 | 1 => s
  | depth + 2 => s.pop.closeBlocks (depth + 1)

/-- Closes the scopes inside a function from the innermost out, and then the function's own. -/
def exitFunction (s : Scopes α) : Scopes α :=
  (s.closeBlocks s.depth).pop

/-- The module alone. -/
def leave (s : Scopes α) : Scopes α :=
  { s with inner := [] }

def declare (s : Scopes α) (name : String) (value : α) : Scopes α :=
  let entry : Entry α := ⟨name, s.depth, value⟩
  match s.inner with
  | [] => { s with base := entry :: s.base }
  | frame :: outer => { s with inner := (entry :: frame) :: outer }

/-- The declaration of a name in the innermost scope. -/
def declaredHere? (s : Scopes α) (name : String) : Option (Entry α) :=
  match s.inner with
  | [] => s.base.get? name
  | frame :: _ => frame.get? name

/-- The declaration that a name refers to: the one in the innermost scope that has one. -/
def resolve? (s : Scopes α) (name : String) : Option (Entry α) :=
  s.frames.findSome? (·.get? name)

/-- The declaration of a name in the open scope of exactly the given depth. -/
def atDepth? (s : Scopes α) (name : String) (depth : Int) : Option (Entry α) :=
  if 0 ≤ depth ∧ depth ≤ s.depth then s.frames[s.depth - depth.toNat]?.bind (·.get? name) else none

/-- The declaration of a name in the open scope of the given depth or else, inside a function body, among
    the function's parameters, whose depth is 1. -/
def resolveAt? (s : Scopes α) (name : String) (depth : Int) : Option (Entry α) :=
  (s.atDepth? name depth).or (if 1 < depth then s.atDepth? name 1 else none)

end Scopes

end LocLang
