import LocLang.Number.Decimal

namespace LocLang.Text

/-- The number that a run of digits stands for; all from `2 ^ 64 - 1` on count as equal. -/
def runValue (digits : List Char) : Nat :=
  min 0xFFFFFFFFFFFFFFFF (Number.digitsValue digits)

/-- Whether the first of two names that differ from here on comes first. `run` are the digits right before. -/
def lessFrom (run s t : List Char) : Bool :=
  let a := run ++ s.takeWhile Char.isDigit
  let b := run ++ t.takeWhile Char.isDigit
  if a ≠ [] ∧ b ≠ [] ∧ runValue a ≠ runValue b then
    runValue a < runValue b
  else
    match s, t with
    | _, [] => false
    | [], _ :: _ => true
    | c :: _, d :: _ => c < d

/-- Whether the first of two names comes first. `run` are the digits that end what they have in common. -/
def naturalLessAfter (run : List Char) : List Char → List Char → Bool
  | c :: s, d :: t =>
    if c = d then naturalLessAfter (if c.isDigit then run ++ [c] else []) s t
    else lessFrom run (c :: s) (d :: t)
  | s, t => lessFrom run s t

def naturalLess (s t : String) : Bool :=
  naturalLessAfter [] s.toList t.toList

def naturalSort (names : List String) : List String :=
  names.mergeSort fun s t => !naturalLess t s

end LocLang.Text
