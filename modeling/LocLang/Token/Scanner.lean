import LocLang.Token
import LocLang.SourceError
import LocLang.Text.Letter
import LocLang.Text.Blank
import LocLang.Text.Utf8

namespace LocLang

/-- A source text, and how it ends: at the end of the file, or where reading fails with a message. -/
structure Source where
  chars : List Char
  failure : Option String := none
deriving DecidableEq, Repr

def Source.ofText (text : String) : Source := ⟨text.toList, none⟩

def Source.ofBytes (bytes : List UInt8) : Source := ⟨Text.Utf8.decode bytes, none⟩

/-- The characters that one token is made of, what they are, and the characters after them. -/
structure Lexeme where
  outcome : Except SyntaxCause TokenKind
  raw : List Char
  rest : List Char

namespace Lexeme

def startsWord (c : Char) : Bool :=
  c = '_' || Text.isLetter c

def continuesWord (c : Char) : Bool :=
  startsWord c || c.isDigit

/-- Whether `c` belongs to a run of digits: underscores may stand between digits. -/
def inDigits (c : Char) : Bool :=
  c = '_' || c.isDigit

def word (cs : List Char) : Lexeme where
  outcome := .ok (.ofWord (.ofList (cs.takeWhile continuesWord)))
  raw := cs.takeWhile continuesWord
  rest := cs.dropWhile continuesWord

/-- A run of digits, of which there has to be one, at the end of the number `raw`. -/
def lastDigits (raw cs : List Char) : Lexeme where
  outcome := if (cs.takeWhile inDigits).any Char.isDigit then .ok .floatLit else .error .incompleteNumber
  raw := raw ++ cs.takeWhile inDigits
  rest := cs.dropWhile inDigits

/-- The optional exponent of a number whose other characters are `raw`. -/
def exponent (kind : TokenKind) (raw cs : List Char) : Lexeme :=
  match cs with
  | [] => ⟨.ok kind, raw, []⟩
  | e :: cs' =>
    if e = 'e' || e = 'E' then
      match cs' with
      | [] => lastDigits (raw ++ [e]) []
      | s :: cs'' =>
        if s = '-' || s = '+' then lastDigits (raw ++ [e, s]) cs'' else lastDigits (raw ++ [e]) cs'
    else ⟨.ok kind, raw, cs⟩

/-- A decimal number. It is a float if it has a fraction or an exponent. -/
def number (cs : List Char) : Lexeme :=
  let whole := cs.takeWhile inDigits
  match cs.dropWhile inDigits with
  | '.' :: cs' =>
    let fraction := lastDigits (whole ++ ['.']) cs'
    match fraction.outcome with
    | .ok kind => exponent kind fraction.raw fraction.rest
    | .error _ => fraction
  | cs' => exponent .intLit whole cs'

/-- A symbol that starts with `c`: the longer of two that fit. -/
def symbol (c : Char) (cs : List Char) : Lexeme :=
  match TokenKind.singles.lookup c with
  | none => ⟨.error (.unexpectedCharacter c), [c], cs⟩
  | some kind =>
    match cs with
    | [] => ⟨.ok kind, [c], []⟩
    | d :: cs' =>
      match TokenKind.pairs.lookup (c, d) with
      | some kind' => ⟨.ok kind', [c, d], cs'⟩
      | none => ⟨.ok kind, [c], cs⟩

/-- The lexeme at the front of the text `c :: cs`, where no blank or comment stands. -/
def ofChars (c : Char) (cs : List Char) : Lexeme :=
  if c.isDigit then number (c :: cs)
  else if startsWord c then word (c :: cs)
  else symbol c cs

/-- The text of a token of the given kind: underscores do not count in numbers. -/
def text (l : Lexeme) (kind : TokenKind) : String :=
  .ofList (if kind.isNumber then l.raw.filter (· ≠ '_') else l.raw)

/-- Whether reading the lexeme means to look at the character after it. A character that starts nothing
    is judged alone, and a symbol of two characters cannot go on. -/
def looksAhead (l : Lexeme) : Bool :=
  match l.outcome with
  | .error (.unexpectedCharacter _) => false
  | .error _ => true
  | .ok kind => !kind.isPair

end Lexeme

/-- Skips blanks and comments; the flag says whether a comment is being skipped. A comment goes from
    two slashes through the end of the line. -/
def skipTrivia : Bool → Pos → List Char → Pos × List Char
  | _, pos, [] => (pos, [])
  | true, pos, c :: cs => skipTrivia (c ≠ '\n') (pos.advance c) cs
  | false, pos, c :: cs =>
    if Text.isBlank c then skipTrivia false (pos.advance c) cs
    else if c = '/' && cs.head? = some '/' then skipTrivia true (pos.advance c) cs
    else (pos, c :: cs)

/-- A place in a source text from which tokens are read. -/
structure Scanner where
  pos : Pos
  ahead : List Char
  failure : Option String
deriving DecidableEq, Repr

namespace Scanner

/-- The scanner before the first character of a source. -/
def start (source : Source) : Scanner :=
  ⟨.origin, source.chars, source.failure⟩

/-- Reads the next token. What was read stays read, also if it was malformed. At the end every call
    gives the end of the file, or the failure to read on. -/
def next (s : Scanner) : Except SourceError Token × Scanner :=
  match skipTrivia false s.pos s.ahead with
  | (pos, []) =>
    (match s.failure with
      | some message => .error (.unreadable message)
      | none => .ok ⟨.eof, "", ⟨pos, pos⟩⟩,
     { s with pos := pos, ahead := [] })
  | (pos, c :: cs) =>
    let lexeme := Lexeme.ofChars c cs
    let stop := pos.after lexeme.raw
    let span : Span := ⟨pos, stop⟩
    (match lexeme.rest, lexeme.looksAhead, s.failure with
      | [], true, some message => .error (.unreadable message)
      | _, _, _ =>
        match lexeme.outcome with
        | .ok kind => .ok ⟨kind, lexeme.text kind, span⟩
        | .error cause => .error (.malformed cause span),
     { s with pos := stop, ahead := lexeme.rest })

/-- The results of exactly `n` steps. -/
def steps : Nat → Scanner → List (Except SourceError Token)
  | 0, _ => []
  | n + 1, s => s.next.1 :: steps n s.next.2

/-- Whether a result is the last one to be read: the end of the file or an error. -/
def isLast : Except SourceError Token → Bool
  | .ok token => token.kind == .eof
  | .error _ => true

/-- The results of at most `n` steps, through the first that is the last to be read. -/
def upTo : Nat → Scanner → List (Except SourceError Token)
  | 0, _ => []
  | n + 1, s => if isLast s.next.1 then [s.next.1] else s.next.1 :: upTo n s.next.2

end Scanner

/-- The tokens of a source through the end of the file or the first error, whichever comes first. Each
    token takes at least one character, so the number of characters bounds the number of steps. -/
def Source.tokens (source : Source) : List (Except SourceError Token) :=
  (Scanner.start source).upTo (source.chars.length + 1)

end LocLang
