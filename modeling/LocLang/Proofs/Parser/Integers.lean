import LocLang.Proofs.Parser.Completeness
import LocLang.Proofs.Token.Spelling
import Mathlib.Algebra.Group.Int.Defs
import Mathlib.Algebra.Group.Nat.Defs

namespace LocLang

open Grammar LocLang.Parser Number Literal List

variable {e : SourceError}

/-- The characters of a decimal number with the given number of minuses before it. -/
def minuses (k : Nat) (digits : List Char) : List Char :=
  replicate k '-' ++ digits

/-- A minus before another one or a number is a token of its own. -/
theorem Scanner.upTo_minus {d : Char} (hd : d ≠ '>') (cs : List Char) (n : Nat) (pos : Pos) :
      upTo (n + 1) ⟨pos, '-' :: d :: cs, none⟩ = .ok ⟨.minus, "-", ⟨pos, pos.advance '-'⟩⟩ :: upTo n ⟨pos.advance '-',
      d :: cs, none⟩ := by
  have hpair : TokenKind.pairs.lookup ('-', d) = none := by
    simp [lookup_eq_none_iff, TokenKind.pairs, hd]
  have hlexeme : Lexeme.ofChars '-' (d :: cs) = ⟨.ok .minus, ['-'], d :: cs⟩ := by
    rw [Lexeme.ofChars, if_neg (by decide), if_neg (by decide), Lexeme.symbol]
    simp only [show TokenKind.singles.lookup '-' = some .minus from rfl, hpair]
  have hnext : next ⟨pos, '-' :: d :: cs, none⟩ =
      (.ok ⟨.minus, "-", ⟨pos, pos.advance '-'⟩⟩, ⟨pos.advance '-', d :: cs, none⟩) := by
    have hskip : skipTrivia false pos ('-' :: d :: cs) = (pos, '-' :: d :: cs) := rfl
    unfold next
    simp only [hskip, hlexeme]
    rfl
  rw [upTo, hnext]
  rfl

/-- What is read of a decimal number with minuses before it. -/
theorem Scanner.upTo_minuses {ds : List Char} (hds : ∀ c ∈ ds, c.isDigit) (hne : ds ≠ []) {k n : Nat}
    (hn : k + 1 < n) (pos : Pos) :
    ∃ signs t eof, upTo n ⟨pos, minuses k ds, none⟩ = (signs ++ [t]).map .ok ++ [.ok eof] ∧ signs.length = k ∧
      (∀ s ∈ signs, s.kind = .minus) ∧ t.kind = .intLit ∧ t.text.toList = ds ∧ eof.kind = .eof := by
  induction k generalizing n pos with
  | zero =>
    obtain ⟨n, rfl⟩ : ∃ m, n = m + 2 := ⟨n - 2, by omega⟩
    have hwhole : Lexeme.Whole ds := by
      refine ⟨fun c hc => by simp [Lexeme.inDigits, hds c hc], ?_⟩
      obtain ⟨c, cs, rfl⟩ := exists_cons_of_ne_nil hne
      exact ⟨c, cs, rfl, hds c mem_cons_self⟩
    let t : Token := ⟨.intLit, .ofList ds, ⟨pos, pos.after ds⟩⟩
    have htext : t.text.toList = ds := String.toList_ofList
    have hreads : t.ReadsBack := by
      rw [Token.ReadsBack, htext]
      exact (Lexeme.Numeral.plain (.whole hwhole)).readsBack fun h => absurd (hds _ h) (by decide)
    have hends : EndsToken [] := by simp [EndsToken]
    have hread := upTo_of_readsBack hreads hends (skipTrivia_of_readsBack hreads hends pos) (n + 1)
    rw [append_nil, htext] at hread
    exact ⟨[], t, ⟨.eof, "", ⟨pos.after ds, pos.after ds⟩⟩, hread, rfl, by simp, rfl, htext, rfl⟩
  | succ k ih =>
    obtain ⟨n, rfl⟩ : ∃ m, n = m + 1 := ⟨n - 1, by omega⟩
    obtain ⟨d, cs, hcs, hd⟩ : ∃ d cs, minuses k ds = d :: cs ∧ d ≠ '>' := by
      cases k with
      | zero =>
        obtain ⟨c, cs, rfl⟩ := exists_cons_of_ne_nil hne
        refine ⟨c, cs, rfl, ?_⟩
        rintro rfl
        exact absurd (hds _ mem_cons_self) (by decide)
      | succ k => exact ⟨'-', minuses k ds, rfl, by decide⟩
    obtain ⟨signs, t, eof, hread, hlength, hsigns, ht⟩ := ih (n := n) (by omega) (pos.advance '-')
    refine ⟨⟨.minus, "-", ⟨pos, pos.advance '-'⟩⟩ :: signs, t, eof, ?_, congrArg (· + 1) hlength, ?_, ht⟩
    · have hminus := upTo_minus hd cs n pos
      rw [← hcs, hread] at hminus
      exact hminus
    · simpa using hsigns

namespace Parser

variable {α β : Type} {c c' c1 : Cursor} {signs : List Token} {t : Token} {k : α → Parser β}

theorem error_bind {x : Parser α} (h : x c = .error e) : (x >>= k) c = .error e := by
  rw [bind_apply, h]
  rfl

theorem Gives.error_bind {x : Parser α} {a : α} (hx : x.Gives c a c1)
    (h : k a c1 = .error e) : (x >>= k) c = .error e := by
  rw [bind_apply, hx]
  exact h

/-- A number with minuses before it is an operand of its own. -/
theorem operand_of_minuses (hsigns : ∀ s ∈ signs, s.kind = .minus) (ht : t.kind = .intLit)
    (hrange : digitsValue t.text.toList ≤ maxInt) : Operand (signs ++ [t]) (.literal (extent (signs ++ [t]))
      (.int ((-1) ^ signs.length * digitsValue t.text.toList))) := by
  induction signs with
  | nil => simpa using Operand.primary (.atom (.literal (.int ht hrange)))
  | cons _ _ ih =>
    obtain ⟨hsign, hsigns⟩ := forall_mem_cons.1 hsigns
    refine .negativeNumber hsign (ih hsigns) ?_
    rw [neg?, length_cons, Int.pow_succ, Int.mul_neg_one, Int.neg_mul]

section OutOfRange

variable (ht : t.kind = .intLit) (hrange : maxInt < digitsValue t.text.toList)
include ht hrange

theorem literal_fails (htakes : c.Takes [t] c') : literal c = .error (.malformed .integerOutOfRange t.span) := by
  refine (Gives.current htakes.token_eq).error_bind ?_
  rw [ht]
  refine (Gives.advance htakes).error_bind ?_
  rw [ofDigits?, if_neg (Nat.not_le.2 hrange)]
  rfl

theorem unary_fails (hsigns : ∀ s ∈ signs, s.kind = .minus) (htakes : c.Takes (signs ++ [t]) c') {n : Nat}
    (hn : c.budget ≤ n) : unary (phrases (n - 1)) c = .error (.malformed .integerOutOfRange t.span) := by
  induction signs generalizing c n with
  | nil =>
    have hkind : c.token.kind = .intLit := htakes.kind_eq ht
    refine (Gives.current rfl).error_bind ((Gives.accept_false (by rw [hkind]; decide)).error_bind ?_)
    refine error_bind ((Gives.current rfl).error_bind ?_)
    rw [hkind]
    exact error_bind (literal_fails ht hrange htakes)
  | cons _ _ ih =>
    obtain ⟨c1, h1, h2⟩ := htakes.uncons
    obtain ⟨hsign, hsigns⟩ := forall_mem_cons.1 hsigns
    have hbudget := h1.budget_one
    have hpos := c1.budget_pos
    obtain ⟨n, rfl⟩ : ∃ m, n = m + 2 := ⟨n - 2, by omega⟩
    have hinner : (phrases (n + 1)).unary c1 = .error (.malformed .integerOutOfRange t.span) :=
      ih (n := n + 1) hsigns h2 (by omega)
    exact (Gives.current h1.token_eq).error_bind ((Gives.accept_true h1 hsign).error_bind (error_bind hinner))

end OutOfRange

end Parser

namespace Source

variable {α : Type}

/-- What a parser makes of a whole text, and the kind of the token that it stops at. -/
def readBy (source : Source) (x : Nat → Parser α) : Except SourceError (α × TokenKind) := do
  let c ← Cursor.start source.tokens
  let (a, c') ← x c.budget c
  pure (a, c'.token.kind)

def expression (source : Source) : Except SourceError (Expr Unit × TokenKind) :=
  source.readBy fun n => (phrases n).expr

def pattern (source : Source) : Except SourceError (Pattern × TokenKind) :=
  source.readBy Parser.pattern

/-- The text of digits with the given number of minuses before them. -/
def ofMinuses (k : Nat) (digits : List Char) : Source :=
  ⟨minuses k digits, none⟩

theorem exists_takes {source : Source} {ts : List Token} {eof : Token} (h : source.tokens = ts.map .ok ++ [.ok eof]) :
    ∃ c c', Cursor.start source.tokens = .ok c ∧ c.Takes ts c' ∧ c'.token = eof := by
  obtain ⟨c, hstart, hc⟩ : ∃ c, Cursor.start source.tokens = .ok c ∧
      .ok c.token :: c.ahead = ts.map .ok ++ [.ok eof] := by
    rw [h]
    cases ts <;> exact ⟨_, rfl, rfl⟩
  obtain ⟨c', htakes, hc'⟩ := Cursor.Takes.exists_of_ahead hc
  exact ⟨c, c', hstart, htakes, hc'⟩

section

variable {source : Source} {x : Nat → Parser α} {c : Cursor} (hstart : Cursor.start source.tokens = .ok c)
include hstart

theorem readBy_eq_ok {a : α} {c' : Cursor} (h : (x c.budget).Gives c a c') :
    source.readBy x = .ok (a, c'.token.kind) := by
  have hread : source.readBy x = (x c.budget c >>= fun r => pure (r.1, r.2.token.kind)) := by
    rw [readBy, hstart]
    rfl
  rw [hread, h]
  rfl

theorem readBy_eq_error (h : x c.budget c = .error e) : source.readBy x = .error e := by
  have hread : source.readBy x = (x c.budget c >>= fun r => pure (r.1, r.2.token.kind)) := by
    rw [readBy, hstart]
    rfl
  rw [hread, h]
  rfl

end

section Digits

variable {digits : List Char} (hdigits : ∀ c ∈ digits, c.isDigit) (hne : digits ≠ [])
include hdigits hne

theorem exists_takes_ofMinuses (k : Nat) : ∃ c c' signs t, Cursor.start (ofMinuses k digits).tokens = .ok c ∧
    c.Takes (signs ++ [t]) c' ∧ c'.token.kind = .eof ∧ signs.length = k ∧ (∀ s ∈ signs, s.kind = .minus) ∧
    t.kind = .intLit ∧ t.text.toList = digits := by
  have hlength := length_pos_iff.2 hne
  obtain ⟨signs, t, eof, hread, hsigns, hminus, ht, htext, heof⟩ := Scanner.upTo_minuses hdigits hne
    (k := k) (n := (ofMinuses k digits).chars.length + 1) (by simp [ofMinuses, minuses]; omega) .origin
  have htokens : (ofMinuses k digits).tokens = (signs ++ [t]).map .ok ++ [.ok eof] := hread
  obtain ⟨c, c', hstart, htakes, hc'⟩ := exists_takes htokens
  exact ⟨c, c', signs, t, hstart, htakes, by rw [hc', heof], hsigns, hminus, ht, htext⟩

/-- A number with any number of minuses before it is a literal of exactly its value, unless its digits are out of range.
    -/
theorem expression_ofMinuses (k : Nat) :
    if digitsValue digits ≤ maxInt then
      ∃ span, (ofMinuses k digits).expression = .ok (.literal span (.int ((-1) ^ k * digitsValue digits)), .eof)
    else ∃ span, (ofMinuses k digits).expression = .error (.malformed .integerOutOfRange span) := by
  obtain ⟨c, c', signs, t, hstart, htakes, heof, rfl, hminus, ht, rfl⟩ := exists_takes_ofMinuses hdigits hne k
  split
  · next hrange =>
    have hoperand := operand_of_minuses hminus ht hrange
    have hexpr := (phrases_accept c.budget).expr.gives
      (.operation (.lower (.lower (.lower (.lower (.operand hoperand)))))) htakes (by rw [heof]; rfl) (Nat.le_refl _)
    exact ⟨_, heof ▸ readBy_eq_ok hstart hexpr⟩
  · next hrange =>
    have hpos := c.budget_pos
    obtain ⟨n, hn⟩ : ∃ n, c.budget = n + 1 := ⟨c.budget - 1, by omega⟩
    have hunary := unary_fails ht (Nat.not_le.1 hrange) hminus htakes (n := n + 1) (Nat.le_of_eq hn)
    have hexpr : (phrases c.budget).expr c = .error (.malformed .integerOutOfRange t.span) := by
      rw [hn]
      exact error_bind (error_bind hunary)
    exact ⟨_, readBy_eq_error hstart hexpr⟩

/-- A pattern has at most one minus. -/
theorem pattern_ofMinuses {k : Nat} (hk : k ≤ 1) :
    if digitsValue digits ≤ maxInt then
      ∃ span, (ofMinuses k digits).pattern = .ok (.literal span (.int ((-1) ^ k * digitsValue digits)), .eof)
    else ∃ span, (ofMinuses k digits).pattern = .error (.malformed .integerOutOfRange span) := by
  obtain ⟨c, c', signs, t, hstart, htakes, heof, rfl, hminus, ht, rfl⟩ := exists_takes_ofMinuses hdigits hne k
  split
  · next hrange =>
    have hphrase : PatternPhrase (signs ++ [t]) (.literal (extent (signs ++ [t]))
        (.int ((-1) ^ signs.length * digitsValue t.text.toList))) := by
      rcases signs with - | ⟨sign, - | ⟨_, _⟩⟩
      · simpa using PatternPhrase.literal (.int ht hrange)
      · exact .negative (hminus _ mem_cons_self) (.int ht hrange) (by simp [neg?])
      · simp at hk
    have hpattern := (pattern_accepts c.budget).gives hphrase htakes (by rw [heof]; rfl) (Nat.le_refl _)
    exact ⟨_, heof ▸ readBy_eq_ok hstart hpattern⟩
  · next hrange =>
    have hfails {c1 : Cursor} (h : c1.Takes [t] c') := literal_fails ht (Nat.not_le.1 hrange) h
    have hpattern : Parser.pattern (c.left + 1) c = .error (.malformed .integerOutOfRange t.span) := by
      rcases signs with - | ⟨sign, - | ⟨_, _⟩⟩
      · refine (Gives.current htakes.token_eq).error_bind ?_
        rw [ht]
        exact error_bind (hfails htakes)
      · obtain ⟨c1, h1, h2⟩ := htakes.uncons
        refine (Gives.current h1.token_eq).error_bind ?_
        rw [hminus sign mem_cons_self]
        refine (Gives.advance h1).error_bind ((Gives.current h2.token_eq).error_bind ?_)
        rw [ht]
        exact error_bind (hfails h2)
      · simp at hk
    exact ⟨_, readBy_eq_error hstart hpattern⟩

end Digits

/-- The text of an integer has a minus if it is negative. -/
theorem ofText_toString (n : Int) :
    ∃ k ≤ 1, ofText (toString n) = ofMinuses k (Nat.toDigits 10 n.natAbs) ∧ (-1) ^ k * n.natAbs = n := by
  cases n with
  | ofNat =>
    refine ⟨0, by decide, ?_, by simp⟩
    exact congrArg (Source.mk · none) Nat.toList_repr
  | negSucc m =>
    refine ⟨1, by decide, ?_, by rw [Int.pow_succ, Int.pow_zero]; omega⟩
    have htext : ("-" ++ (m + 1).repr).toList = minuses 1 (Nat.toDigits 10 (m + 1)) := by
      rw [String.toList_append, Nat.toList_repr]
      rfl
    exact congrArg (Source.mk · none) htext

/-- Whether a text reads as an integer, be it as an expression or as a pattern. -/
def IsInteger (source : Source) (n : Int) : Prop :=
  (∃ span, source.expression = .ok (.literal span (.int n), .eof)) ∧
    ∃ span, source.pattern = .ok (.literal span (.int n), .eof)

/-- Whether a text is rejected as an integer that is out of range. -/
def IsOutOfRange (source : Source) : Prop :=
  (∃ span, source.expression = .error (.malformed .integerOutOfRange span)) ∧
    ∃ span, source.pattern = .error (.malformed .integerOutOfRange span)

/-- The text of an integer reads as the integer, unless its digits are out of range. -/
theorem read_toString (n : Int) :
    if n.natAbs ≤ maxInt then (ofText (toString n)).IsInteger n else (ofText (toString n)).IsOutOfRange := by
  have hdigits : ∀ c ∈ Nat.toDigits 10 n.natAbs, c.isDigit := fun c hc =>
      Nat.isDigit_of_mem_toDigits (by decide) (by decide) hc
  have hnumber : digitsValue (Nat.toDigits 10 n.natAbs) = n.natAbs := Nat.ofDigitChars_ten_toDigits
  obtain ⟨k, hk, htext, hvalue⟩ := ofText_toString n
  have hexpression := expression_ofMinuses hdigits Nat.toDigits_ne_nil k
  have hpattern := pattern_ofMinuses hdigits Nat.toDigits_ne_nil hk
  rw [hnumber, hvalue, ← htext] at hexpression hpattern
  by_cases hfits : n.natAbs ≤ maxInt
  · rw [if_pos hfits] at hexpression hpattern ⊢
    exact ⟨hexpression, hpattern⟩
  · rw [if_neg hfits] at hexpression hpattern ⊢
    exact ⟨hexpression, hpattern⟩

/-- Every integer of 64 bits but the lowest can be written, and nothing else; no number wraps around, however many zeros
    it starts with and however many minuses stand before it. -/
theorem integers_written_but_lowest (n : Int) (k : Nat) {digits : List Char} (hdigits : ∀ c ∈ digits, c.isDigit)
    (hne : digits ≠ []) :
    (if -2 ^ 63 < n ∧ n < 2 ^ 63 then (ofText (toString n)).IsInteger n else (ofText (toString n)).IsOutOfRange) ∧
    if digitsValue digits < 2 ^ 63 then
      ∃ span, (ofMinuses k digits).expression = .ok (.literal span (.int ((-1) ^ k * digitsValue digits)), .eof)
    else ∃ span, (ofMinuses k digits).expression = .error (.malformed .integerOutOfRange span) := by
  have hrange (m : Nat) : m < 2 ^ 63 ↔ m ≤ maxInt := by
    rw [maxInt]
    omega
  have hn : -2 ^ 63 < n ∧ n < 2 ^ 63 ↔ n.natAbs ≤ maxInt := by
    rw [← hrange]
    omega
  constructor
  · simpa only [hn] using read_toString n
  · simpa only [hrange] using expression_ofMinuses hdigits hne k

theorem integers_written_but_lowest_seven : (∀ c ∈ ['0', '0', '7'], c.isDigit) ∧ ['0', '0', '7'] ≠ [] ∧
    (ofText (toString (-7 : Int))).IsInteger (-7) ∧
    ∃ span, (ofText "--007").expression = .ok (.literal span (.int 7), .eof) := by
  have hdigits : ∀ c ∈ ['0', '0', '7'], c.isDigit := all_eq_true.1 rfl
  have hne : ['0', '0', '7'] ≠ [] := cons_ne_nil _ _
  have hseven := integers_written_but_lowest (-7) 2 hdigits hne
  exact ⟨hdigits, hne, hseven⟩

theorem lowest_out_of_range : toString (-2 ^ 63 : Int) = "-9223372036854775808" ∧
    (ofText "-9223372036854775808").IsOutOfRange := by
  have htext : toString (-2 ^ 63 : Int) = "-9223372036854775808" := by decide +kernel
  have hread := read_toString (-2 ^ 63)
  exact ⟨htext, hread⟩

end Source

end LocLang
