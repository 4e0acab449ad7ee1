import LocLang.Analysis
import LocLang.Report.Console
import LocLang.Text.NaturalOrder

namespace LocLang

def Symbol.row (s : Symbol) : List String :=
  [s.name, if s.kind = .function then "function" else "value",
   if s.typeName = "" then s.type.name else s.typeName,
   s.storage.text, toString s.depth, s.modes.text]

namespace SymbolTable

def heading : List String :=
  ["Name", "Kind", "Type", "Storage", "Depth", "Modes"]

/-- The rows of the table: symbols by the natural order of their names, those of one name in the order of
    declaration. -/
def rows (symbols : List Symbol) : List (List String) :=
  let names := Text.naturalSort (symbols.map (·.name)).eraseDups
  heading :: names.flatMap fun name => (symbols.filter (·.name = name)).map (·.row)

def widths (rows : List (List String)) : List Nat :=
  rows.foldl (fun ws row => List.zipWith max ws (row.map (·.length))) (heading.map (·.length))

/-- A row with its cells padded. -/
def rowText (widths : List Nat) (row : List String) : String :=
  " | ".intercalate (List.zipWith Excerpt.padRight row widths)

def lines (rows : List (List String)) : List String :=
  rows.map (rowText (widths rows))

end SymbolTable

/-- Reports an analysis: its trace and its symbols, if the level shows them, and its diagnostics. -/
def Report.analysis (subject : Subject) (a : Analysis) : Report Unit := do
  if (← get).level.showsTrace then
    printLines (a.trace.map ("Info " ++ ·))
    if !a.symbols.isEmpty then
      printLines (["", "Symbols " ++ subject.shown] ++ SymbolTable.lines (SymbolTable.rows a.symbols) ++ [""])
  diagnostics subject a.diagnostics

end LocLang
