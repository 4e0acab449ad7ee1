import LocLang.Span

namespace LocLang

inductive TokenKind where
  | kwFn | kwEnum | kwLet | kwLocal | kwGlobal | kwUnique | kwShared
  | kwIf | kwElse | kwWhile | kwMatch | kwReturn | kwTrue | kwFalse
  | plus | minus | star | slash
  | eq | ne | lt | gt | le | ge | bang
  | assign | arrow | fatArrow
  | lparen | rparen | lbrace | rbrace
  | comma | dot | dcolon | semi | colon
  | ident | intLit | floatLit
  | eof
deriving DecidableEq, Repr, Inhabited

namespace TokenKind

/-- The reserved words. Names of types are ordinary identifiers. -/
def keywords : List (String × TokenKind) :=
  [("fn", kwFn), ("enum", kwEnum), ("let", kwLet), ("local", kwLocal), ("global", kwGlobal),
   ("unique", kwUnique), ("shared", kwShared), ("if", kwIf), ("else", kwElse), ("while", kwWhile),
   ("match", kwMatch), ("return", kwReturn), ("true", kwTrue), ("false", kwFalse)]

/-- The kind of a word: a keyword or an identifier. -/
def ofWord (word : String) : TokenKind :=
  (keywords.lookup word).getD ident

def singles : List (Char × TokenKind) :=
  [('+', plus), ('-', minus), ('*', star), ('/', slash), ('<', lt), ('>', gt), ('!', bang),
   ('=', assign), ('(', lparen), (')', rparen), ('{', lbrace), ('}', rbrace), (',', comma),
   ('.', dot), (';', semi), (':', colon)]

/-- The symbols of two characters, which win over the one that they start with. -/
def pairs : List ((Char × Char) × TokenKind) :=
  [(('=', '='), eq), (('!', '='), ne), (('<', '='), le), (('>', '='), ge), (('-', '>'), arrow),
   (('=', '>'), fatArrow), ((':', ':'), dcolon)]

def isPair (k : TokenKind) : Bool :=
  pairs.any (·.2 == k)

def isNumber (k : TokenKind) : Bool :=
  k == intLit || k == floatLit

end TokenKind

/-- A token of a source text. The end of the text is a token too, with an empty text. -/
structure Token where
  kind : TokenKind
  text : String
  span : Span
deriving DecidableEq, Repr, Inhabited

end LocLang
