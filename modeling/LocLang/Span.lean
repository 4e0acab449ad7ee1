import LocLang.Number.Word

namespace LocLang

/-- A place between two characters of a source text. -/
structure Pos where
  line : Int
  col : Int
deriving DecidableEq, Repr, Inhabited

namespace Pos

def origin : Pos := ⟨0, 0⟩

/-- The position after the character `c`: a newline opens the next line and a tab is four columns
    wide. -/
def advance (p : Pos) (c : Char) : Pos :=
  if c = '\n' then ⟨p.line + 1, 0⟩
  else if c = '\t' then ⟨p.line, p.col + 4⟩
  else ⟨p.line, p.col + 1⟩

def after (p : Pos) (cs : List Char) : Pos :=
  cs.foldl advance p

@[simp]
theorem after_nil (p : Pos) : p.after [] = p := rfl

@[simp]
theorem after_cons (p : Pos) (c : Char) (cs : List Char) : p.after (c :: cs) = (p.advance c).after cs := rfl

@[simp]
theorem after_append (p : Pos) (cs ds : List Char) : p.after (cs ++ ds) = (p.after cs).after ds := by
  simp [after]

end Pos

/-- The part of a source text between two positions. -/
structure Span where
  start : Pos
  stop : Pos
deriving DecidableEq, Repr, Inhabited

namespace Span

/-- The span from the start of one span to the end of another. -/
def through (a b : Span) : Span := ⟨a.start, b.stop⟩

/-- `through` where either side may be missing: the other one stands alone. -/
def through? : Option Span → Option Span → Option Span
  | some a, some b => some (a.through b)
  | some a, none => some a
  | none, b => b

/-- A line or a column as shown to a reader. -/
def shownNumber (n : Int) : Int :=
  Number.wrapInt64 (n + 1)

/-- Where the span starts, as shown to a reader. -/
def text (s : Span) : String :=
  s!"{shownNumber s.start.line}:{shownNumber s.start.col}"

/-- A message with the place that it is about. -/
def locate (s : Span) (message : String) : String :=
  s.text ++ ": " ++ message

end Span

end LocLang
