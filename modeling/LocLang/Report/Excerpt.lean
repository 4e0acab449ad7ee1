import LocLang.Span
import LocLang.Text.Utf8

namespace LocLang

/-- A line of a file in bytes, without its end. -/
abbrev ByteLine := List UInt8

namespace ByteLine

/-- The lines of a file. After the last line end there is no line. -/
def split : List UInt8 → List ByteLine
  | [] => []
  | b :: bs =>
    if b = 0x0A then [] :: split bs
    else
      match split bs with
      | [] => [[b]]
      | line :: lines => (b :: line) :: lines

/-- The length from which on lines are not read. -/
def maxLength : Nat := 65536

def isTooLong (line : ByteLine) : Bool :=
  maxLength ≤ line.length

/-- The line without a carriage return at its end. -/
def trimReturn (line : ByteLine) : ByteLine :=
  if line.getLast? = some 0x0D then line.dropLast else line

/-- The line with four spaces for every tab. -/
def expandTabs (line : ByteLine) : ByteLine :=
  line.flatMap fun b => if b = 0x09 then [0x20, 0x20, 0x20, 0x20] else [b]

/-- How many spaces the line starts with. -/
def indent (line : ByteLine) : Nat :=
  (line.takeWhile (· = 0x20)).length

end ByteLine

/-- The lines that an excerpt shows, as they are displayed, and the span that it is about. -/
structure Excerpt where
  span : Span
  lines : List ByteLine

namespace Excerpt

def ofLines (lines : List ByteLine) (span : Span) : Excerpt :=
  let covered := lines.zipIdx.filter fun (_, i) => span.start.line ≤ i && i ≤ span.stop.line
  ⟨span, covered.map fun (line, _) => line.trimReturn.expandTabs⟩

/-- The indentation that all lines have. -/
def commonIndent (e : Excerpt) : Nat :=
  (e.lines.map (·.indent)).min?.getD 0

def numberWidth (e : Excerpt) : Nat :=
  (toString (Span.shownNumber e.span.stop.line)).length

/-- A text with spaces up to a width. -/
def padRight (text : String) (width : Nat) : String :=
  text ++ "".pushn ' ' (width - text.length)

/-- How many columns come before the carets under the line with the given index. Those under a later line continue
    from its start. -/
def caretOffset (e : Excerpt) (i : Nat) : Int :=
  if i = 0 then Number.wrapInt64 (e.span.start.col - e.commonIndent) else 0

/-- The column, in the line with the given index, where the carets end: on the last line that of the span, else the
    end of the line. -/
def caretEnd (e : Excerpt) (i : Nat) (line : ByteLine) : Int :=
  if i + 1 = e.lines.length then e.span.stop.col else line.length

/-- How many spaces come before the carets. -/
def caretIndent (e : Excerpt) (i : Nat) : Nat :=
  (e.caretOffset i).toNat

/-- How many carets there are: at least one. -/
def caretCount (e : Excerpt) (i : Nat) (line : ByteLine) : Nat :=
  (max 1 (Number.wrapInt64 (e.caretEnd i line - e.caretOffset i - e.commonIndent))).toNat

/-- The text of a line without the common indentation. -/
def lineText (e : Excerpt) (line : ByteLine) : String :=
  Text.Utf8.text (line.drop e.commonIndent)

/-- A line with its number, and the carets under it. -/
def lineRows (e : Excerpt) (line : ByteLine) (i : Nat) : List String :=
  let number := toString (Span.shownNumber (e.span.start.line + i))
  [padRight number e.numberWidth ++ " | " ++ e.lineText line,
   padRight "" e.numberWidth ++ " | " ++ "".pushn ' ' (e.caretIndent i) ++ "".pushn '^' (e.caretCount i line)]

/-- The rows of an excerpt; they end with an empty one, unless there are none. -/
def rows (e : Excerpt) : List String :=
  if e.lines.isEmpty then [] else (e.lines.zipIdx.flatMap fun (line, i) => e.lineRows line i) ++ [""]

end Excerpt

end LocLang
