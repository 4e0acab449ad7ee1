import LocLang.Token.Scanner

namespace LocLang

/-- The token that the parser stands on, the span of the one it took last, and what follows. -/
structure Cursor where
  token : Token
  last : Span
  ahead : List (Except SourceError Token)
  /-- How much follows. -/
  left : Nat
  left_eq : left = ahead.length

namespace Cursor

/-- A cursor on the first token. -/
def start : List (Except SourceError Token) → Except SourceError Cursor
  | [] => .error (.malformed .outOfSteps ⟨.origin, .origin⟩)
  | .error e :: _ => .error e
  | .ok token :: ahead => .ok ⟨token, ⟨.origin, .origin⟩, ahead, ahead.length, rfl⟩

def next : Cursor → Except SourceError Cursor
  | ⟨token, _, [], _, _⟩ => .error (.malformed .outOfSteps token.span)
  | ⟨_, _, .error e :: _, _, _⟩ => .error e
  | ⟨token, _, .ok following :: ahead, left, left_eq⟩ =>
    .ok ⟨following, token.span, ahead, left - 1, by simp [left_eq]⟩

/-- How many times a token can still be taken, and one more: a bound on how deep phrases can nest and on
    how often they can repeat from here, because each of them takes a token. -/
def budget (c : Cursor) : Nat :=
  c.left + 1

end Cursor

/-- A reader of a phrase: it moves the cursor past the phrase or fails at the first error. -/
abbrev Parser := StateT Cursor (Except SourceError)

namespace Parser

variable {α β : Type}

theorem bind_apply (x : Parser α) (k : α → Parser β) (c : Cursor) :
    (x >>= k) c = (x c >>= fun r => k r.1 r.2) := rfl

/-- Parsers that go on alike from all that their first part gives are alike. -/
theorem bind_congr_at {x : Parser α} {k k' : α → Parser β} {c : Cursor}
    (h : ∀ a c', x c = .ok (a, c') → k a c' = k' a c') : (x >>= k) c = (x >>= k') c := by
  rw [bind_apply, bind_apply]
  cases hx : x c with
  | error e => rfl
  | ok r => exact h r.1 r.2 hx

theorem exists_of_bind_eq_ok {x : Parser α} {k : α → Parser β} {c c' : Cursor} {b : β}
    (h : (x >>= k) c = .ok (b, c')) : ∃ a c1, x c = .ok (a, c1) ∧ k a c1 = .ok (b, c') := by
  rw [bind_apply] at h
  cases hx : x c with
  | error e =>
    rw [hx] at h
    cases h
  | ok r =>
    rw [hx] at h
    exact ⟨r.1, r.2, rfl, h⟩

def current : Parser Token :=
  fun c => .ok (c.token, c)

/-- The bound on repetitions from here. -/
def budget : Parser Nat :=
  fun c => .ok (c.budget, c)

/-- The span from the start of `span` to the end of the last token taken. -/
def spanFrom (span : Span) : Parser Span :=
  fun c => .ok (span.through c.last, c)

/-- Whether the parser stands on a token of the given kind. -/
def has (kind : TokenKind) : Parser Bool :=
  fun c => .ok (c.token.kind == kind, c)

/-- Fails at the current token. -/
def reject : Parser α :=
  fun c => .error <|
    if c.token.kind = .eof then .malformed .unexpectedEnd c.token.span
    else .malformed (.unexpectedToken c.token.text) c.token.span

/-- Fails at a given place. -/
def fail (cause : SyntaxCause) (span : Span) : Parser α :=
  fun _ => .error (.malformed cause span)

/-- Fails where the steps that were granted are used up. -/
def outOfSteps : Parser α :=
  fun c => .error (.malformed .outOfSteps c.token.span)

def advance : Parser Unit :=
  fun c => c.next.map ((), ·)

/-- Takes a token of the given kind. Any other token is rejected before reading on. -/
def want (kind : TokenKind) : Parser Token := do
  let token ← current
  if token.kind = kind then
    advance
    pure token
  else reject

/-- Takes the current token if it is of the given kind, and says whether it did. -/
def accept (kind : TokenKind) : Parser Bool := do
  if ← has kind then
    advance
    pure true
  else pure false

/-- Items one after the other up to a token of kind `stop`, which stays. -/
def manyUntil (stop : TokenKind) (item : Parser α) : Nat → Parser (List α)
  | 0 => outOfSteps
  | n + 1 => do
    if ← has stop then pure []
    else
      let x ← item
      let xs ← manyUntil stop item n
      pure (x :: xs)

/-- One item or more, with commas between them. -/
def separated (item : Parser α) : Nat → Parser (List α)
  | 0 => outOfSteps
  | n + 1 => do
    let x ← item
    if ← accept .comma then
      let xs ← separated item n
      pure (x :: xs)
    else pure [x]

/-- Items with commas between them up to a token of kind `close`, which stays. -/
def listed (item : Parser α) (close : TokenKind) : Parser (List α) := do
  if ← has close then pure []
  else separated item (← budget)

end Parser

end LocLang
