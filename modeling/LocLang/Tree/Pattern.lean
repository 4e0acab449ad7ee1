import LocLang.Span
import LocLang.Tree.Literal

namespace LocLang

inductive Pattern where
  /-- Matches everything. -/
  | wildcard (span : Span)
  /-- Matches a value equal to the literal. -/
  | literal (span : Span) (value : Literal)
  /-- Matches everything and names it. -/
  | bind (span : Span) (name : String)
  /-- Matches one variant of an enum. Without parentheses there are no arguments; `()` is an empty list of
      them. -/
  | variant (span : Span) (enumName variant : String) (args : Option (List Pattern))
deriving Repr, Inhabited

def Pattern.span : Pattern → Span
  | wildcard span => span
  | literal span _ => span
  | bind span _ => span
  | variant span _ _ _ => span

/-- Whether the pattern matches every value by its form. -/
def Pattern.isIrrefutable : Pattern → Bool
  | wildcard _ => true
  | bind _ _ => true
  | _ => false

end LocLang
