import LocLang.Scope

namespace LocLang

variable {α : Type}

namespace ScopeTable

/-- Something declared, with the depth of the table at the time. -/
structure Item (α : Type) where
  name : String
  depth : Int
  value : α
deriving DecidableEq, Repr

/-- The items of one scope. A name has at most one. -/
structure Items (α : Type) where
  list : List (Item α)
  distinct : (list.map (·.name)).Nodup

namespace Items

def empty : Items α := ⟨[], List.nodup_nil⟩

def get? (items : Items α) (name : String) : Option (Item α) :=
  items.list.find? (·.name = name)

/-- Puts in an item, in place of the one with its name. -/
def set (items : Items α) (item : Item α) : Items α where
  list := item :: items.list.filter (·.name ≠ item.name)
  distinct := by
    rw [List.map_cons, List.nodup_cons]
    exact ⟨by simp, items.distinct.sublist (List.filter_sublist.map _)⟩

end Items

/-- A scope with its own record of its depth: the module's, or one that is nested in another. -/
inductive Frame (α : Type) where
  | base (items : Items α) (depth : Int)
  | nested (items : Items α) (depth : Int) (parent : Frame α)

namespace Frame

def items : Frame α → Items α
  | base items _ | nested items _ _ => items

/-- Declares an item in the scope itself. -/
def declare (item : Item α) : Frame α → Frame α
  | base items depth => base (items.set item) depth
  | nested items depth parent => nested (items.set item) depth parent

/-- The item of a name, looked up from the scope outward. -/
def resolve? (name : String) : Frame α → Option (Item α)
  | base items _ => items.get? name
  | nested items _ parent =>
    match items.get? name with
    | some item => some item
    | none => parent.resolve? name

/-- The item of a name at the given depth, looked up from the scope outward. The way out ends at the first scope that is
    not as deep. -/
def atDepth? (name : String) (depth : Int) : Frame α → Option (Item α)
  | base items d => if d = depth then items.get? name else none
  | nested items d parent =>
    if d = depth then
      match items.get? name with
      | some item => some item
      | none => parent.atDepth? name depth
    else if d < depth then none
    else parent.atDepth? name depth

end Frame

end ScopeTable

/-- The scopes around a place in a program, each linked to the one around it. The table keeps the depth of the
    innermost one, which every scope also has on its own. -/
structure ScopeTable (α : Type) where
  current : ScopeTable.Frame α
  depth : Int

namespace ScopeTable

/-- The module alone. -/
def new : ScopeTable α := ⟨.base .empty 0, 0⟩

def push (t : ScopeTable α) : ScopeTable α :=
  ⟨.nested .empty (t.depth + 1) t.current, t.depth + 1⟩

/-- Closes the innermost scope. The module is never closed. -/
def pop (t : ScopeTable α) : ScopeTable α :=
  match t.current with
  | .base _ _ => t
  | .nested _ _ parent => ⟨parent, t.depth - 1⟩

/-- Closes scopes as long as the depth is more than 1. There is no result if that never ends: if the depth counts more
    scopes than are nested. -/
def closeBlocks : Frame α → (depth : Int) → Option (ScopeTable α)
  | .base items d, depth => if 1 < depth then none else some ⟨.base items d, depth⟩
  | .nested items d parent, depth =>
    if 1 < depth then closeBlocks parent (depth - 1) else some ⟨.nested items d parent, depth⟩

/-- Closes every scope of a function, from the innermost to the one of its parameters. -/
def exitFunction (t : ScopeTable α) : Option (ScopeTable α) :=
  (closeBlocks t.current t.depth).map pop

def declare (t : ScopeTable α) (name : String) (value : α) : ScopeTable α :=
  { t with current := t.current.declare ⟨name, t.depth, value⟩ }

/-- The item of a name in the innermost scope. -/
def declaredLocally? (t : ScopeTable α) (name : String) : Option (Item α) :=
  t.current.items.get? name

def resolve? (t : ScopeTable α) (name : String) : Option (Item α) :=
  t.current.resolve? name

/-- The item of a name at the given depth or else, inside a function body, among the function's parameters. -/
def resolveAt? (t : ScopeTable α) (name : String) (depth : Int) : Option (Item α) :=
  match t.current.atDepth? name depth with
  | some item => some item
  | none => if 1 < depth then t.current.atDepth? name 1 else none

end ScopeTable

end LocLang
