import LocLang.Parser.Operators

namespace LocLang.Parser

/-- The phrases that occur inside phrases. -/
structure Phrases where
  expr : Parser (Expr Unit)
  unary : Parser (Expr Unit)
  chain : Parser (IfChain Unit)
  block : Parser (Block Unit)

/-- A type with its arguments, which nest at most as deep as the number says. -/
def typeLabel : Nat → Parser TypeLabel
  | 0 => outOfSteps
  | n + 1 => do
    let name ← want .ident
    if ← accept .lt then
      let args ← separated (typeLabel n) (← budget)
      let _ ← want .gt
      pure (.mk (← spanFrom name.span) name.text args)
    else pure (.mk (← spanFrom name.span) name.text [])

/-- The optional word for the locality of a declaration. -/
def locality : Parser Locality := do
  let token ← current
  match token.kind with
  | .kwLocal =>
    advance
    pure .asLocal
  | .kwGlobal =>
    advance
    pure .asGlobal
  | _ => pure .unspecified

/-- The optional word for the uniqueness of a declaration. -/
def uniqueness : Parser Uniqueness := do
  let token ← current
  match token.kind with
  | .kwUnique =>
    advance
    pure .unique
  | .kwShared =>
    advance
    pure .shared
  | _ => pure .unspecified

/-- The optional qualifiers of a declaration. -/
def modes : Parser Modes := do
  let locality ← locality
  let uniqueness ← uniqueness
  pure ⟨locality, uniqueness⟩

/-- A literal with its span. Its value is looked at after reading on. -/
def literal : Parser (Span × Literal) := do
  let token ← current
  match token.kind with
  | .intLit =>
    advance
    match Literal.ofDigits? token.text.toList with
    | some value => pure (token.span, value)
    | none => fail .integerOutOfRange token.span
  | .floatLit =>
    advance
    match Literal.ofDecimal? token.text.toList with
    | some value => pure (token.span, value)
    | none => fail .malformedFloat token.span
  | .kwTrue =>
    advance
    pure (token.span, .bool true)
  | .kwFalse =>
    advance
    pure (token.span, .bool false)
  | _ => reject

/-- Whether the parser stands between the names of an enum and a variant; takes the sign if so. -/
def variantSign : Parser Bool := do
  let token ← current
  match token.kind with
  | .dot | .dcolon =>
    advance
    pure true
  | _ => pure false

/-- A pattern whose arguments nest at most as deep as the number says. -/
def pattern : Nat → Parser Pattern
  | 0 => outOfSteps
  | n + 1 => do
    let token ← current
    match token.kind with
    | .intLit | .floatLit | .kwTrue | .kwFalse =>
      let (span, value) ← literal
      pure (.literal span value)
    | .minus =>
      advance
      let number ← current
      if number.kind.isNumber then
        let (_, value) ← literal
        let span ← spanFrom token.span
        pure (.literal span (value.neg?.getD value))
      else reject
    | .ident =>
      advance
      if ← variantSign then
        let variant ← want .ident
        let args ←
          if ← accept .lparen then
            let args ← listed (pattern n) .rparen
            let _ ← want .rparen
            pure (some args)
          else pure none
        pure (.variant (← spanFrom token.span) token.text variant.text args)
      else if token.text = "_" then pure (.wildcard token.span)
      else pure (.bind token.span token.text)
    | _ => reject

section Layer

variable (inner : Phrases)

/-- One arm of a match. A block may stand only where the match has no value; a value is followed by a comma
    or the end of the match. -/
def arm (blocks : Bool) : Parser (Arm Unit) := do
  let pattern ← pattern (← budget)
  let _ ← want .fatArrow
  if ← has .lbrace then
    if blocks then
      let body ← inner.block
      let span ← spanFrom pattern.span
      let _ ← accept .comma
      pure (.block span pattern body)
    else fail .blockInValueArm (← current).span
  else
    let value ← inner.expr
    let span ← spanFrom pattern.span
    if ← accept .comma then pure (.value span pattern value)
    else
      if ← has .rbrace then pure (.value span pattern value)
      else reject

/-- A match; `blocks` says whether its arms may have blocks. -/
def selection (blocks : Bool) : Parser (Match Unit) := do
  let start ← want .kwMatch
  let scrutinee ← inner.expr
  let _ ← want .lbrace
  let arms ← manyUntil .rbrace (arm inner blocks) (← budget)
  advance
  pure (.mk (← spanFrom start.span) () scrutinee arms)

/-- A literal, a name, a variant, an expression in parentheses or a match. -/
def atom : Parser (Expr Unit) := do
  let token ← current
  match token.kind with
  | .intLit | .floatLit | .kwTrue | .kwFalse =>
    let (span, value) ← literal
    pure (.literal span value)
  | .ident =>
    advance
    if ← variantSign then
      let variant ← want .ident
      pure (.variant (token.span.through variant.span) token.text variant.text)
    else pure (.ident token.span token.text)
  | .lparen =>
    advance
    let e ← inner.expr
    let _ ← want .rparen
    pure (.paren (← spanFrom token.span) e)
  | .kwMatch =>
    let m ← selection inner false
    pure (.select m)
  | _ => reject

/-- Calls of `callee`, any number of them one after the other. -/
def calls : Nat → Expr Unit → Parser (Expr Unit)
  | 0, _ => outOfSteps
  | n + 1, callee => do
    if ← accept .lparen then
      let args ← listed inner.expr .rparen
      let _ ← want .rparen
      calls n (.call (← spanFrom callee.span) callee args)
    else pure callee

/-- The negation of an operand, with the span `sign` of the minus and the span of the whole. A minus before a
    number is part of the number; otherwise it subtracts from zero. -/
def negated (sign span : Span) (operand : Expr Unit) : Expr Unit :=
  let difference := .binary span .sub (.literal sign (.int 0)) operand
  match operand with
  | .literal _ value =>
    match value.neg? with
    | some value' => .literal span value'
    | none => difference
  | _ => difference

/-- An operand: an atom with its calls, or the negation of an operand. -/
def unary : Parser (Expr Unit) := do
  let token ← current
  if ← accept .minus then
    let operand ← inner.unary
    pure (negated token.span (← spanFrom token.span) operand)
  else
    let e ← atom inner
    calls inner (← budget) e

/-- An expression: an operation, or an assignment to one. -/
def expr : Parser (Expr Unit) := do
  let lhs ← operation (unary inner)
  if ← accept .assign then
    let rhs ← inner.expr
    pure (.assign (lhs.span.through rhs.span) lhs rhs)
  else pure lhs

def chain : Parser (IfChain Unit) := do
  let start ← want .kwIf
  let condition ← inner.expr
  let body ← inner.block
  if ← accept .kwElse then
    if ← has .kwIf then
      let next ← inner.chain
      pure (.orIf (← spanFrom start.span) condition body next)
    else
      let other ← inner.block
      pure (.orElse (← spanFrom start.span) condition body other)
  else pure (.only (← spanFrom start.span) condition body)

def declaration : Parser (Stmt Unit) := do
  let start ← want .kwLet
  let modes ← modes
  let name ← want .ident
  let _ ← want .colon
  let label ← typeLabel (← budget)
  let init ←
    if ← accept .assign then
      let e ← inner.expr
      pure (some e)
    else pure none
  let _ ← want .semi
  pure (.decl (← spanFrom start.span) modes name.text name.span label init)

def loop : Parser (Stmt Unit) := do
  let start ← want .kwWhile
  let condition ← inner.expr
  let body ← inner.block
  pure (.loop (← spanFrom start.span) condition body)

/-- A return, with or without a value. -/
def giveBack : Parser (Stmt Unit) := do
  let start ← want .kwReturn
  let value ←
    if ← has .semi then pure none
    else
      let e ← inner.expr
      pure (some e)
  let _ ← want .semi
  pure (.ret (← spanFrom start.span) value)

/-- A statement. One that starts with `match` is a match of its own; a semicolon may follow it. -/
def stmt : Parser (Stmt Unit) := do
  let token ← current
  match token.kind with
  | .kwLet => declaration inner
  | .kwIf =>
    let chain ← inner.chain
    pure (.cond chain)
  | .kwWhile => loop inner
  | .kwMatch =>
    let m ← selection inner true
    let _ ← accept .semi
    pure (.select m)
  | .kwReturn => giveBack inner
  | .lbrace =>
    let body ← inner.block
    pure (.block body)
  | _ =>
    let e ← inner.expr
    let _ ← want .semi
    pure (.expr (← spanFrom e.span) e)

def block : Parser (Block Unit) := do
  let start ← want .lbrace
  let stmts ← manyUntil .rbrace (stmt inner) (← budget)
  advance
  pure (.mk (← spanFrom start.span) stmts)

end Layer

/-- The phrases that nest less deep than the number says. -/
def phrases : Nat → Phrases
  | 0 => ⟨outOfSteps, outOfSteps, outOfSteps, outOfSteps⟩
  | n + 1 =>
    let inner := phrases n
    ⟨expr inner, unary inner, chain inner, block inner⟩

end LocLang.Parser
