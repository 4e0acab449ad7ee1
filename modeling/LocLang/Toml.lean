namespace LocLang.Toml

inductive Value where
  | text (s : String)
  | integer (n : Int)
  | float
  | bool (b : Bool)
  /-- A date, a time, or both. -/
  | moment
  | array
deriving DecidableEq, Repr, Inhabited

/-- Keys, each of them once, with what they stand for. -/
structure Entries (α : Type) where
  list : List (String × α) := []
  /-- Whether the table was written in braces: nothing can be added to it later. -/
  closed : Bool := false
deriving Repr, Inhabited

/-- What a key stands for. -/
inductive Node where
  | value (v : Value)
  | table (entries : Entries Node)
  /-- Several tables under one key, the latest last. -/
  | tables (all : List (Entries Node))
deriving Repr, Inhabited

abbrev Table := Entries Node

namespace Table

def lookup (t : Table) (key : String) : Option Node :=
  t.list.lookup key

/-- Puts something under a key, in place of what was there. -/
def set (t : Table) (key : String) (node : Node) : Table :=
  { t with list := t.list.filter (·.1 ≠ key) ++ [(key, node)] }

/-- What keys lead to; of several tables under one key the latest is meant. -/
def find : List String → Table → Option Node
  | [], t => some (.table t)
  | [key], t => t.lookup key
  | key :: keys, t =>
    match t.lookup key with
    | some (.table inner) => find keys inner
    | some (.tables all) => find keys (all.getLast?.getD {})
    | some (.value _) | none => none

/-- Changes the table that keys lead to; of several tables under one key the latest is meant. -/
def change (f : Table → Option Table) : List String → Table → Option Table
  | [], t => f t
  | key :: keys, t =>
    match t.lookup key with
    | none => (change f keys { closed := t.closed }).map fun inner => t.set key (.table inner)
    | some (.table inner) => (change f keys inner).map fun inner => t.set key (.table inner)
    | some (.tables all) =>
      (change f keys (all.getLast?.getD {})).map fun inner => t.set key (.tables (all.dropLast ++ [inner]))
    | some (.value _) => none

/-- Puts something where keys lead to, in place of what was there. A key on the way that has a value is passed over. -/
def put (node : Node) : List String → Table → Table
  | [], t => t
  | [key], t => t.set key node
  | key :: keys, t =>
    match t.lookup key with
    | none => t.set key (.table (put node keys {}))
    | some (.table inner) => t.set key (.table (put node keys inner))
    | some (.tables all) => t.set key (.tables (all.dropLast ++ [put node keys (all.getLast?.getD {})]))
    | some (.value _) => put node keys t

/-- Puts something under a key that is not in use. -/
def define (key : String) (node : Node) (t : Table) : Option Table :=
  if t.closed || (t.lookup key).isSome then none else some (t.set key node)

/-- Adds a table to those where keys lead to. The tables on the way are made first, unless a value is in the way. -/
def append (keys : List String) (t : Table) : Option Table :=
  let t := (t.change some keys.dropLast).getD t
  match t.find keys with
  | none => some (t.put (.tables [{}]) keys)
  | some (.tables all) => some (t.put (.tables (all ++ [{}])) keys)
  | some (.table _) | some (.value _) => none

end Table

/-- A document that is being read. -/
structure Draft where
  root : Table := {}
  /-- The keys of the table that definitions go to. -/
  current : List String := []
  /-- The headers so far, as they were written. -/
  headers : List String := []

namespace Draft

/-- Takes a header of a table. No header can be repeated, nor can it be that of a table in braces. -/
def openTable (d : Draft) (header : String) (keys : List String) : Option Draft :=
  if header ∈ d.headers then none
  else do
    let root ← d.root.change some keys
    match root.find keys with
    | some (.table t) => if t.closed then none else some ⟨root, keys, d.headers ++ [header]⟩
    | _ => some ⟨root, keys, d.headers ++ [header]⟩

/-- Takes a header of one of several tables. Headers of tables inside can be used again. -/
def openElement (d : Draft) (header : String) (keys : List String) : Option Draft :=
  (d.root.append keys).map fun root =>
    let inside := (header ++ ".").toList
    ⟨root, keys, d.headers.filter (fun h => !inside.isPrefixOf h.toList) ++ [header]⟩

def define (d : Draft) (keys : List String) (node : Node) : Option Draft :=
  match keys.getLast? with
  | none => none
  | some key =>
    (d.root.change (Table.define key node) (d.current ++ keys.dropLast)).map fun root => { d with root }

end Draft

end LocLang.Toml
