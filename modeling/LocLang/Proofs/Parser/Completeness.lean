import LocLang.Proofs.Parser.Soundness

namespace LocLang

variable {ts us : List Token} {t : Token}

/-- A literal that has one with the other sign is a number. -/
theorem Grammar.LiteralToken.isNumber_of_neg? {value negated : Literal} (h : LiteralToken t value)
    (hnegated : value.neg? = some negated) : t.kind.isNumber := by
  cases h with
  | int ht | float ht => simp [ht, TokenKind.isNumber]
  | true | false => cases hnegated

namespace Parser

variable {c : Cursor} {e : Expr Unit}

open Grammar

variable {kind : TokenKind}

/-- Whether a token of this kind goes on with an operand or a pattern. -/
def continuesOperand : TokenKind → Bool
  | .lparen | .dot | .dcolon => true
  | _ => false

/-- Whether a token of this kind goes on with an expression. -/
def continuesExpr (kind : TokenKind) : Bool :=
  continuesOperand kind || kind == .assign || (BinaryOp.ofToken? kind).isSome

theorem typeLabel_accepts (n : Nat) : Accepts n (typeLabel n) TypePhrase (· ≠ .lt) := by
  induction n with
  | zero => exact .zero _ _ _
  | succ _ ih =>
    refine ⟨fun {ts label c c'} h htakes hends hbudget => ?_⟩
    cases h with
    | plain hname =>
      exact (Gives.want htakes hname).bind ((Gives.accept_false hends).bind (.ite_false (.spanned htakes)))
    | generic hname hleft hargs hright =>
      obtain ⟨c3, h, h4⟩ := htakes.split
      obtain ⟨c1, h1, h⟩ := h.uncons
      obtain ⟨c2, h2, h3⟩ := h.uncons
      have hb1 := h1.budget_one
      have hb2 := h2.budget_le
      have hend := h4.kind_eq hright
      have hargs := ih.separated nofun hargs h3 (by rw [hend]; decide) (by rw [hend]; decide) (by omega)
          (Nat.le_refl c2.budget)
      exact (Gives.want h1 hname).bind ((Gives.accept_true h2 hleft).bind (.ite_true ((Gives.budget c2).bind (hargs.bind
        ((Gives.want h4 hright).bind (.spanned htakes))))))

theorem locality_accepts (n : Nat) : Accepts n locality LocalityPhrase fun kind => kind ≠ .kwLocal ∧
    kind ≠ .kwGlobal := by
  refine ⟨fun {ts l c c'} h htakes hends _ => ?_⟩
  cases h with
  | unspecified =>
    obtain rfl := htakes.eq_of_nil
    refine (Gives.current rfl).bind ?_
    split
    · next hkind => exact absurd hkind hends.1
    · next hkind => exact absurd hkind hends.2
    · exact .pure _ _
  | asLocal ht | asGlobal ht =>
    refine (Gives.current htakes.token_eq).bind ?_
    rw [ht]
    exact (Gives.advance htakes).bind (.pure _ _)

theorem uniqueness_accepts (n : Nat) : Accepts n uniqueness UniquenessPhrase fun kind => kind ≠ .kwUnique ∧
    kind ≠ .kwShared := by
  refine ⟨fun {ts u c c'} h htakes hends _ => ?_⟩
  cases h with
  | unspecified =>
    obtain rfl := htakes.eq_of_nil
    refine (Gives.current rfl).bind ?_
    split
    · next hkind => exact absurd hkind hends.1
    · next hkind => exact absurd hkind hends.2
    · exact .pure _ _
  | unique ht | shared ht =>
    refine (Gives.current htakes.token_eq).bind ?_
    rw [ht]
    exact (Gives.advance htakes).bind (.pure _ _)

/-- Modes stand before a name. -/
theorem modes_accepts (n : Nat) : Accepts n modes ModesPhrase (· = .ident) := by
  refine ⟨fun {ts m c c'} h htakes hends hbudget => ?_⟩
  cases h with
  | mk hl hu =>
    obtain ⟨c1, h1, h2⟩ := htakes.split
    have hmiddle : c1.token.kind ≠ .kwLocal ∧ c1.token.kind ≠ .kwGlobal := by
      cases hu with
      | unspecified =>
        obtain rfl := h2.eq_of_nil
        rw [hends]
        decide
      | unique ht | shared ht =>
        rw [h2.kind_eq ht]
        decide
    have hl := (locality_accepts n).gives hl h1 hmiddle hbudget
    have hu := (uniqueness_accepts c1.budget).gives hu h2 (by rw [hends]; decide) (Nat.le_refl _)
    exact hl.bind (hu.bind (.pure _ _))

/-- Modes, a name and its type. -/
theorem binder_gives {name colon : Token} {m : Modes} {label : TypeLabel} {c' : Cursor}
    (hmodes : ModesPhrase ts m) (hname : name.kind = .ident) (hcolon : colon.kind = .colon)
      (hlabel : TypePhrase us label)
    (htakes : c.Takes (ts ++ name :: colon :: us) c') (hends : c'.token.kind ≠ .lt) :
    ∃ c1 c2 c3, modes.Gives c m c1 ∧ (want .ident).Gives c1 name c2 ∧ (want .colon).Gives c2 colon c3 ∧
      (typeLabel c3.budget).Gives c3 label c' := by
  obtain ⟨c1, h1, h⟩ := htakes.split
  obtain ⟨c2, h2, h⟩ := h.uncons
  obtain ⟨c3, h3, h4⟩ := h.uncons
  have hmodes := (modes_accepts _).gives hmodes h1 (h2.kind_eq hname) (Nat.le_refl _)
  have hlabel := (typeLabel_accepts c3.budget).gives hlabel h4 hends (Nat.le_refl _)
  exact ⟨c1, c2, c3, hmodes, .want h2 hname, .want h3 hcolon, hlabel⟩

theorem literal_gives {value : Literal} {c' : Cursor} (h : LiteralToken t value) (htakes : c.Takes [t] c') :
    literal.Gives c (t.span, value) c' := by
  refine (Gives.current htakes.token_eq).bind ?_
  cases h with
  | int ht hrange =>
    rw [ht]
    refine (Gives.advance htakes).bind ?_
    rw [Literal.ofDigits?, if_pos hrange]
    exact .pure _ _
  | float ht hx =>
    rw [ht]
    refine (Gives.advance htakes).bind ?_
    rw [Literal.ofDecimal?, hx]
    exact .pure _ _
  | true ht | false ht =>
    rw [ht]
    exact (Gives.advance htakes).bind (.pure _ _)

theorem variantSign_true {c' : Cursor} (h : IsVariantSign t) (htakes : c.Takes [t] c') :
    variantSign.Gives c true c' := by
  refine (Gives.current htakes.token_eq).bind ?_
  rcases h with ht | ht <;> rw [ht] <;> exact (Gives.advance htakes).bind (.pure _ _)

theorem variantSign_false (hdot : c.token.kind ≠ .dot) (hcolons : c.token.kind ≠ .dcolon) :
    variantSign.Gives c false c := by
  refine (Gives.current rfl).bind ?_
  split
  · next hkind => exact absurd hkind hdot
  · next hkind => exact absurd hkind hcolons
  · exact .pure _ _

theorem of_continuesOperand (h : continuesOperand kind = false) : kind ≠ .lparen ∧ kind ≠ .dot ∧ kind ≠ .dcolon := by
  refine ⟨?_, ?_, ?_⟩ <;> rintro rfl <;> cases h

theorem pattern_accepts (n : Nat) : Accepts n (pattern n) PatternPhrase (continuesOperand · = false) := by
  induction n with
  | zero => exact .zero _ _ _
  | succ _ ih =>
    refine ⟨fun {ts p c c'} h htakes hends hbudget => ?_⟩
    obtain ⟨hparen, hdot, hcolons⟩ := of_continuesOperand hends
    have hspan := Gives.spanFrom htakes
    cases h with
    | wildcard ht hblank =>
      refine (Gives.current htakes.token_eq).bind ?_
      rw [ht]
      refine (Gives.advance htakes).bind ((variantSign_false hdot hcolons).bind (.ite_false ?_))
      rw [if_pos hblank]
      exact .pure _ _
    | bind ht hname =>
      refine (Gives.current htakes.token_eq).bind ?_
      rw [ht]
      refine (Gives.advance htakes).bind ((variantSign_false hdot hcolons).bind (.ite_false ?_))
      rw [if_neg hname]
      exact .pure _ _
    | literal hvalue =>
      have hliteral : Gives (literal >>= fun r => pure (Pattern.literal r.1 r.2)) c _ c' :=
        (literal_gives hvalue htakes).bind (.pure _ _)
      refine (Gives.current htakes.token_eq).bind ?_
      cases hvalue with
      | int ht | float ht | true ht | false ht =>
        rw [ht]
        exact hliteral
    | negative hsign hvalue hnegated =>
      obtain ⟨c1, h1, h2⟩ := htakes.uncons
      refine (Gives.current htakes.token_eq).bind ?_
      rw [hsign]
      refine (Gives.advance h1).bind ((Gives.current h2.token_eq).bind ?_)
      rw [if_pos (hvalue.isNumber_of_neg? hnegated)]
      refine (literal_gives hvalue h2).bind ((hspan (by simp) rfl).bind ?_)
      rw [hnegated]
      exact .pure _ _
    | variant henum hsign hname =>
      obtain ⟨c1, h1, h⟩ := htakes.uncons
      obtain ⟨c2, h2, h3⟩ := h.uncons
      refine (Gives.current htakes.token_eq).bind ?_
      rw [henum]
      refine (Gives.advance h1).bind ((variantSign_true hsign h2).bind (.ite_true ((Gives.want h3 hname).bind ?_)))
      refine (Gives.accept_false hparen).bind (.ite_false ((Gives.pure none c').bind ?_))
      exact .spanned htakes
    | applied henum hsign hname hleft hargs hright =>
      obtain ⟨c5, h, h6⟩ := htakes.split
      obtain ⟨c1, h1, h⟩ := h.uncons
      obtain ⟨c2, h2, h⟩ := h.uncons
      obtain ⟨c3, h3, h⟩ := h.uncons
      obtain ⟨c4, h4, h5⟩ := h.uncons
      have hb1 := h1.budget_one
      have hb2 := h2.budget_le
      have hb3 := h3.budget_le
      have hb4 := h4.budget_le
      have hstart : Starts PatternPhrase (· ≠ .rparen) := PatternPhrase.starts.ne (by decide)
      have hargs := ih.listed .rparen rfl rfl nofun hstart hargs h5 (h6.kind_eq hright) (by omega)
      refine (Gives.current htakes.token_eq).bind ?_
      rw [henum]
      refine (Gives.advance h1).bind ((variantSign_true hsign h2).bind (.ite_true ((Gives.want h3 hname).bind ?_)))
      refine (Gives.accept_true h4 hleft).bind (.ite_true
        (hargs.bind ((Gives.want h6 hright).bind ((Gives.pure _ c').bind ?_))))
      exact .spanned htakes

theorem continuesOperand_of_operator {op : BinaryOp} (h : BinaryOp.ofToken? kind = some op) :
    continuesOperand kind = false := by
  cases kind <;> first | rfl | cases h

theorem of_continuesExpr (h : continuesExpr kind = false) :
    continuesOperand kind = false ∧ kind ≠ .assign ∧ BinaryOp.ofToken? kind = none := by
  simpa [continuesExpr, and_assoc] using h

theorem operatorBelow_some {op : BinaryOp} {limit : Nat} (h : BinaryOp.ofToken? c.token.kind = some op)
    (hlevel : op.level < limit) : (operatorBelow limit).Gives c (some op) c := by
  refine (Gives.current rfl).bind ?_
  rw [h, Option.filter_some, if_pos (decide_eq_true hlevel)]
  exact .pure _ _

/-- Climbing ends where no operator binds tight enough. -/
theorem climb_ends (operand : Parser (Expr Unit)) {n limit : Nat} (hn : 0 < n)
    (h : ∀ op, BinaryOp.ofToken? c.token.kind = some op → limit ≤ op.level) : (climb operand n limit e).Gives c e
    c := by
  obtain ⟨n, rfl⟩ : ∃ k, n = k + 1 := ⟨n - 1, by omega⟩
  have hnone : (BinaryOp.ofToken? c.token.kind).filter (·.level < limit) = none := by
    simpa [Option.filter_eq_none_iff] using h
  have hoperator : (operatorBelow limit).Gives c none c := (Gives.current rfl).bind (hnone ▸ .pure _ _)
  exact hoperator.bind (.pure _ _)

/-- The negation of what is not a number subtracts from zero. -/
theorem negated_of_ne_number (h : ∀ span value, e = .literal span value → value.neg? = none) (sign span : Span) :
    negated sign span e = .binary span .sub (.literal sign (.int 0)) e := by
  cases e with
  | literal _ value => rw [negated, h _ value rfl]
  | ident | variant | binary | assign | call | paren | select => rfl

/-- Whether every phrase is given, if at most `n` tokens are ahead. -/
structure Phrases.Accepts (n : Nat) (inner : Phrases) : Prop where
  expr : Parser.Accepts n inner.expr Expression (continuesExpr · = false)
  unary : Parser.Accepts n inner.unary Operand (continuesOperand · = false)
  chain : Parser.Accepts n inner.chain Conditional (· ≠ .kwElse)
  block : Parser.Accepts n inner.block Body fun _ => True

section Layer

variable {arms : List (Arm Unit)}

variable {n : Nat} {inner : Phrases} (hinner : inner.Accepts n) {c c1 c' : Cursor} {ts : List Token} {blocks : Bool}
include hinner

/-- An arm ends with a comma, before the end of the match, or with a block that no comma follows. -/
theorem arm_gives {a : Arm Unit} (h : Case blocks ts a) (htakes : c.Takes ts c1)
    (hend : (∃ comma, comma.kind = .comma ∧ c1.Takes [comma] c') ∨
      c' = c1 ∧ (c1.token.kind = .rbrace ∨ c1.token.kind ≠ .comma ∧ ∃ span pattern body, a = .block span pattern body))
    (hbudget : c.budget ≤ n) : (arm inner blocks).Gives c a c' := by
  have hspan := Gives.spanFrom htakes
  cases h with
  | value hpattern harrow hvalue =>
    obtain ⟨c2, h1, h⟩ := htakes.split
    obtain ⟨c3, h2, h3⟩ := h.uncons
    have hb1 := h1.budget_le
    have hb2 := h2.budget_le
    have hspan := hspan (by simp) (hpattern.start_eq _)
    have hfirst : c3.token.kind ≠ .lbrace := first_of_starts (Expression.starts.ne (by decide)) hvalue h3
    have hpattern := (pattern_accepts c.budget).gives hpattern h1 (by rw [h2.kind_eq harrow]; rfl) (Nat.le_refl _)
    refine (Gives.budget c).bind (hpattern.bind ((Gives.want h2 harrow).bind
      ((Gives.has_false hfirst).bind (.ite_false ?_))))
    rcases hend with ⟨comma, hcomma, h4⟩ | ⟨rfl, hlast | ⟨-, _, _, _, heq⟩⟩
    · have hvalue := hinner.expr.gives hvalue h3 (by rw [h4.kind_eq hcomma]; rfl) (by omega)
      exact hvalue.bind (hspan.bind ((Gives.accept_true h4 hcomma).bind (.ite_true (.pure _ _))))
    · have hvalue := hinner.expr.gives hvalue h3 (by rw [hlast]; rfl) (by omega)
      have hcomma : c'.token.kind ≠ .comma := by simp [hlast]
      exact hvalue.bind (hspan.bind ((Gives.accept_false hcomma).bind (.ite_false ((Gives.has_true hlast).bind
        (.ite_true (.pure _ _))))))
    · cases heq
  | block hpattern harrow hbody =>
    obtain ⟨c2, h1, h⟩ := htakes.split
    obtain ⟨c3, h2, h3⟩ := h.uncons
    have hb1 := h1.budget_le
    have hb2 := h2.budget_le
    have hspan := hspan (by simp) (hpattern.start_eq _)
    have hfirst : c3.token.kind = .lbrace := first_of_starts Body.starts hbody h3
    have hpattern := (pattern_accepts c.budget).gives hpattern h1 (by rw [h2.kind_eq harrow]; rfl) (Nat.le_refl _)
    have hbody := hinner.block.gives hbody h3 trivial (by omega)
    refine (Gives.budget c).bind (hpattern.bind ((Gives.want h2 harrow).bind
      ((Gives.has_true hfirst).bind (.ite_true ?_))))
    refine .ite_true (hbody.bind (hspan.bind ?_))
    rcases hend with ⟨comma, hcomma, h4⟩ | ⟨rfl, hlast⟩
    · exact (Gives.accept_true h4 hcomma).bind (.pure _ _)
    · have hcomma : c'.token.kind ≠ .comma := by
        rcases hlast with hlast | ⟨hcomma, -⟩
        · simp [hlast]
        · exact hcomma
      exact (Gives.accept_false hcomma).bind (.pure _ _)

omit hinner in
theorem arms_first_ne_comma (h : Arms blocks ts arms) (htakes : c.Takes ts c')
    (hend : c'.token.kind = .rbrace) : c.token.kind ≠ .comma := by
  have hcase : Starts (Case blocks) (· ≠ .comma) := (Case.starts blocks).ne (by decide)
  cases h with
  | none =>
    obtain rfl := htakes.eq_of_nil
    simp [hend]
  | last harm => exact first_of_starts hcase harm htakes
  | comma harm | block harm =>
    obtain ⟨c1, h1, -⟩ := htakes.split
    exact first_of_starts hcase harm h1

theorem arms_give (h : Arms blocks ts arms) (htakes : c.Takes ts c')
    (hend : c'.token.kind = .rbrace) (hbudget : c.budget ≤ n) {m : Nat} (hm : c.budget ≤ m) :
    (manyUntil .rbrace (arm inner blocks) m).Gives c arms c' := by
  have hpos := c.budget_pos
  obtain ⟨m, rfl⟩ : ∃ k, m = k + 1 := ⟨m - 1, by omega⟩
  have hcase : Starts (Case blocks) (· ≠ .rbrace) := (Case.starts blocks).ne (by decide)
  induction arms generalizing ts c m with
  | nil =>
    cases h
    obtain rfl := htakes.eq_of_nil
    exact .manyUntil_nil _ _ hend
  | cons _ _ ih =>
    cases h with
    | last harm =>
      have hfirst := first_of_starts hcase harm htakes
      have hlength := hcase.length_pos harm
      have hb := htakes.budget_eq
      have hpos' := c'.budget_pos
      obtain ⟨m, rfl⟩ : ∃ k, m = k + 1 := ⟨m - 1, by omega⟩
      exact .manyUntil_cons hfirst (arm_gives hinner harm htakes (.inr ⟨rfl, .inl hend⟩) hbudget)
        (.manyUntil_nil _ _ hend)
    | comma harm hcomma hrest =>
      obtain ⟨c1, h1, h⟩ := htakes.split
      obtain ⟨c2, h2, h3⟩ := h.uncons
      have hfirst := first_of_starts hcase harm h1
      have hb1 := h1.budget_le
      have hb2 := h2.budget_one
      have hpos2 := c2.budget_pos
      obtain ⟨m, rfl⟩ : ∃ k, m = k + 1 := ⟨m - 1, by omega⟩
      exact .manyUntil_cons hfirst (arm_gives hinner harm h1 (.inl ⟨_, hcomma, h2⟩) hbudget)
        (ih hrest h3 (by omega) hpos2 m (by omega))
    | block harm hrest =>
      obtain ⟨c1, h1, h2⟩ := htakes.split
      have hfirst := first_of_starts hcase harm h1
      have hlength := hcase.length_pos harm
      have hb1 := h1.budget_eq
      have hpos1 := c1.budget_pos
      have hcomma := arms_first_ne_comma hrest h2 hend
      obtain ⟨m, rfl⟩ : ∃ k, m = k + 1 := ⟨m - 1, by omega⟩
      exact .manyUntil_cons hfirst (arm_gives hinner harm h1 (.inr ⟨rfl, .inr ⟨hcomma, _, _, _, rfl⟩⟩) hbudget)
        (ih hrest h2 (by omega) hpos1 m (by omega))

theorem selection_accepts (blocks : Bool) : Accepts (n + 1) (selection inner blocks)
    (Selection blocks) fun _ => True := by
  refine ⟨fun {ts m c c'} h htakes _ hbudget => ?_⟩
  cases h with
  | mk hstart hscrutinee hleft harms hright =>
    obtain ⟨c2, h, h'⟩ := htakes.split
    obtain ⟨c1, h1, h2⟩ := h.uncons
    obtain ⟨c4, h', h5⟩ := h'.split
    obtain ⟨c3, h3, h4⟩ := h'.uncons
    have hb1 := h1.budget_one
    have hb2 := h2.budget_le
    have hb3 := h3.budget_le
    have hscrutinee := hinner.expr.gives hscrutinee h2 (by rw [h3.kind_eq hleft]; rfl) (by omega)
    have harms := arms_give hinner harms h4 (h5.kind_eq hright) (by omega) (Nat.le_refl c3.budget)
    exact (Gives.want h1 hstart).bind (hscrutinee.bind ((Gives.want h3 hleft).bind ((Gives.budget c3).bind (harms.bind
      ((Gives.advance h5).bind (.spanned htakes))))))

theorem atom_accepts : Accepts (n + 1) (atom inner) Atom fun kind => kind ≠ .dot ∧ kind ≠ .dcolon := by
  refine ⟨fun {ts e c c'} h htakes hends hbudget => ?_⟩
  cases h with
  | literal hvalue =>
    have hliteral : Gives (literal >>= fun r => pure (Expr.literal r.1 r.2 : Expr Unit)) c _ c' :=
      (literal_gives hvalue htakes).bind (.pure _ _)
    refine (Gives.current htakes.token_eq).bind ?_
    cases hvalue with
    | int ht | float ht | true ht | false ht =>
      rw [ht]
      exact hliteral
  | name ht =>
    refine (Gives.current htakes.token_eq).bind ?_
    rw [ht]
    exact (Gives.advance htakes).bind ((variantSign_false hends.1 hends.2).bind (.ite_false (.pure _ _)))
  | variant henum hsign hname =>
    obtain ⟨c1, h1, h⟩ := htakes.uncons
    obtain ⟨c2, h2, h3⟩ := h.uncons
    refine (Gives.current htakes.token_eq).bind ?_
    rw [henum]
    exact (Gives.advance h1).bind ((variantSign_true hsign h2).bind
      (.ite_true ((Gives.want h3 hname).bind (.pure _ _))))
  | paren hleft he hright =>
    obtain ⟨c2, h, h3⟩ := htakes.split
    obtain ⟨c1, h1, h2⟩ := h.uncons
    have hb1 := h1.budget_one
    have he := hinner.expr.gives he h2 (by rw [h3.kind_eq hright]; rfl) (by omega)
    refine (Gives.current htakes.token_eq).bind ?_
    rw [hleft]
    exact (Gives.advance h1).bind (he.bind ((Gives.want h3 hright).bind (.spanned htakes)))
  | select hmatch =>
    refine (Gives.current rfl).bind ?_
    rw [first_of_starts (Selection.starts false) hmatch htakes]
    exact ((selection_accepts hinner false).gives hmatch htakes trivial hbudget).bind (.pure _ _)

/-- Reading an atom and its calls comes to the end of each primary that the tokens ahead start with, and goes on with
    more calls from there. -/
theorem calls_resume : ∀ {ts : List Token} {e : Expr Unit} {c c' : Cursor}, Primary ts e → c.Takes ts c' →
    c'.token.kind ≠ .dot ∧ c'.token.kind ≠ .dcolon → c.budget ≤ n + 1 → ∃ m, c'.budget ≤ m ∧
      ∀ {a c''}, (calls inner m e).Gives c' a c'' → (do let e ← atom inner; calls inner (← budget) e).Gives c a c''
  | _, _, _, c', .atom hatom, htakes, hends, hbudget => by
    have hatom := (atom_accepts hinner).gives hatom htakes hends hbudget
    exact ⟨c'.budget, Nat.le_refl _, fun h => hatom.bind ((Gives.budget c').bind h)⟩
  | _, _, _, _, .call hcallee hleft hargs hright, htakes, _, hbudget => by
    have hspan := Gives.spanFrom htakes (by simp) (hcallee.start_eq _)
    obtain ⟨c1, h1, h⟩ := htakes.split
    obtain ⟨c3, h, h4⟩ := h.split
    obtain ⟨c2, h2, h3⟩ := h.uncons
    have hb1 := h1.budget_le
    have hb2 := h2.budget_one
    have hb3 := h3.budget_le
    have hb4 := h4.budget_le
    have hargs := hinner.expr.listed .rparen rfl rfl nofun (Expression.starts.ne (by decide)) hargs h3
        (h4.kind_eq hright) (by omega)
    obtain ⟨m, hm, hresume⟩ := calls_resume hcallee h1 (by rw [h2.kind_eq hleft]; decide) hbudget
    obtain ⟨m, rfl⟩ : ∃ k, m = k + 1 := ⟨m - 1, by omega⟩
    refine ⟨m, by omega, fun h => hresume ?_⟩
    exact (Gives.accept_true h2 hleft).bind (.ite_true (hargs.bind ((Gives.want h4 hright).bind (hspan.bind h))))

theorem unary_accepts : Accepts (n + 1) (unary inner) Operand (continuesOperand · = false) := by
  refine ⟨fun {ts e c c'} h htakes hends hbudget => ?_⟩
  have hspan := Gives.spanFrom htakes
  cases h with
  | primary hprimary =>
    obtain ⟨hparen, hsigns⟩ := of_continuesOperand hends
    have hfirst : c.token.kind ≠ .minus := first_of_starts (Primary.starts.ne (by decide)) hprimary htakes
    obtain ⟨m, hm, hresume⟩ := calls_resume hinner hprimary htakes hsigns hbudget
    have hpos := c'.budget_pos
    obtain ⟨m, rfl⟩ : ∃ k, m = k + 1 := ⟨m - 1, by omega⟩
    refine (Gives.current rfl).bind ((Gives.accept_false hfirst).bind (.ite_false (hresume ?_)))
    exact (Gives.accept_false hparen).bind (.ite_false (.pure _ _))
  | negativeNumber hsign hnumber hnegated =>
    obtain ⟨c1, h1, h2⟩ := htakes.uncons
    have hb1 := h1.budget_one
    have hnumber := hinner.unary.gives hnumber h2 hends (by omega)
    refine (Gives.current h1.token_eq).bind ((Gives.accept_true h1 hsign).bind (.ite_true (hnumber.bind
      ((hspan (by simp) rfl).bind ?_))))
    rw [negated, hnegated]
    exact .pure _ _
  | negation hsign hoperand hother =>
    obtain ⟨c1, h1, h2⟩ := htakes.uncons
    have hb1 := h1.budget_one
    have hoperand := hinner.unary.gives hoperand h2 hends (by omega)
    refine (Gives.current h1.token_eq).bind ((Gives.accept_true h1 hsign).bind (.ite_true (hoperand.bind
      ((hspan (by simp) rfl).bind ?_))))
    rw [negated_of_ne_number hother]
    exact .pure _ _

omit hinner in
/-- The operators before the end of a phrase are taken, with all that binds tighter than them, if the operator that
    comes next does not bind tighter. -/
theorem climb_resume {operand : Parser (Expr Unit)} (hoperand : Accepts n operand Operand (continuesOperand · = false))
    {k : Nat}
    (h : Layered Operand k ts e) (htakes : c.Takes ts c') (hends : continuesOperand c'.token.kind = false)
    (hnext : ∀ op, BinaryOp.ofToken? c'.token.kind = some op → k ≤ op.level + 1) (hbudget : c.budget ≤ n) :
    ∃ first c1, operand.Gives c first c1 ∧ c1.budget ≤ c.budget ∧ ∀ {limit m}, k ≤ limit → c1.budget ≤ m →
      ∃ m', c'.budget ≤ m' ∧
      ∀ {a c''}, (climb operand m' limit e).Gives c' a c'' → (climb operand m limit first).Gives c1 a c'' := by
  induction h generalizing c c' with
  | operand hfirst =>
    exact ⟨_, c', hoperand.gives hfirst htakes hends hbudget, htakes.budget_le, fun _ hm => ⟨_, hm, id⟩⟩
  | lower _ ih =>
    obtain ⟨first, c1, hfirst, hb1, hresume⟩ := ih htakes hends (fun op hop => Nat.le_of_succ_le (hnext op hop)) hbudget
    exact ⟨first, c1, hfirst, hb1, fun hk => hresume (Nat.le_of_succ_le hk)⟩
  | @binary _ _ t op _ rhs hlhs hop hrhs ihlhs ihrhs =>
    obtain ⟨c2, h2, h⟩ := htakes.split
    obtain ⟨c3, h3, h4⟩ := h.uncons
    have hb2 := h2.budget_le
    have hb3 := h3.budget_one
    have hop2 : BinaryOp.ofToken? c2.token.kind = some op := by rw [h3.token_eq, hop]
    have hnext2 : ∀ op', BinaryOp.ofToken? c2.token.kind = some op' → op.level + 1 ≤ op'.level + 1 := by
      intro op' hop'
      cases hop2.symm.trans hop'
      exact Nat.le_refl _
    obtain ⟨first, c1, hfirst, hb1, hresume⟩ := ihlhs h2 (continuesOperand_of_operator hop2) hnext2 hbudget
    obtain ⟨first', c4, hfirst', hb4, hresume'⟩ :=
        ihrhs h4 hends (fun op' hop' => Nat.le_of_succ_le (hnext op' hop')) (by omega)
    refine ⟨first, c1, hfirst, hb1, fun {limit m} hk hm => ?_⟩
    obtain ⟨m', hm', hresume⟩ := hresume hk hm
    obtain ⟨m', rfl⟩ : ∃ k, m' = k + 1 := ⟨m' - 1, by omega⟩
    -- the operand on the right ends where the phrase does
    have hright : (climb operand m' op.level first').Gives c4 rhs c' := by
      obtain ⟨m'', hm'', hresume'⟩ := hresume' (Nat.le_refl _) (by omega : c4.budget ≤ m')
      exact hresume' (climb_ends operand (Nat.lt_of_lt_of_le c'.budget_pos hm'')
        fun op' hop' => Nat.le_of_succ_le_succ (hnext op' hop'))
    refine ⟨m', Nat.le_trans h4.budget_le (by omega), fun hrest => hresume ?_⟩
    rw [climb_succ]
    refine (operatorBelow_some hop2 hk).bind ((Gives.advance h3).bind (hfirst'.bind (hright.bind ?_)))
    have hts := (Layered.starts Operand.starts _).ne_nil hlhs
    have hus := (Layered.starts Operand.starts _).ne_nil hrhs
    rw [hlhs.span_eq, hrhs.span_eq, extent_through hts hus t]
    exact hrest

theorem operation_accepts : Accepts (n + 1) (operation (unary inner)) (Layered Operand BinaryOp.levels) fun kind =>
    continuesOperand kind = false ∧ BinaryOp.ofToken? kind = none := by
  refine ⟨fun {ts e c c'} h htakes hends hbudget => ?_⟩
  have hnone : ∀ (k : Nat) op, BinaryOp.ofToken? c'.token.kind = some op → k ≤ op.level := by simp [hends.2]
  obtain ⟨first, c1, hfirst, -, hresume⟩ := climb_resume (unary_accepts hinner) h htakes hends.1
    (fun op hop => Nat.le_succ_of_le (hnone _ op hop)) hbudget
  obtain ⟨m, hm, hresume⟩ := hresume (Nat.le_refl _) (Nat.le_refl c1.budget)
  have hclimb := climb_ends (unary inner) (e := e) (Nat.lt_of_lt_of_le c'.budget_pos hm) (hnone BinaryOp.levels)
  exact hfirst.bind ((Gives.budget c1).bind (hresume hclimb))

theorem expr_accepts : Accepts (n + 1) (expr inner) Expression (continuesExpr · = false) := by
  refine ⟨fun {ts e c c'} h htakes hends hbudget => ?_⟩
  cases h with
  | operation hoperation =>
    obtain ⟨hoperand, hassign, hoperator⟩ := of_continuesExpr hends
    have hoperation := (operation_accepts hinner).gives hoperation htakes ⟨hoperand, hoperator⟩ hbudget
    exact hoperation.bind ((Gives.accept_false hassign).bind (.ite_false (.pure _ _)))
  | @assign ts us sign target rhs htarget hsign hrhs =>
    obtain ⟨c1, h1, h⟩ := htakes.split
    obtain ⟨c2, h2, h3⟩ := h.uncons
    have hb1 := h1.budget_le
    have hb2 := h2.budget_one
    have hts := (Layered.starts Operand.starts _).ne_nil htarget
    have hus := Expression.starts.ne_nil hrhs
    have hspan : target.span.through rhs.span = extent (ts ++ sign :: us) := by
      rw [htarget.span_eq, hrhs.span_eq, extent_through hts hus]
    have htarget := (operation_accepts hinner).gives htarget h1 (by rw [h2.kind_eq hsign]; decide) hbudget
    have hrhs := hinner.expr.gives hrhs h3 hends (by omega)
    refine htarget.bind ((Gives.accept_true h2 hsign).bind (.ite_true (hrhs.bind ?_)))
    rw [hspan]
    exact .pure _ _

theorem guarded_gives {condition : Expr Unit} {body : Block Unit} (hcondition : Expression ts condition)
    (hbody : Body us body) (htakes : c.Takes (ts ++ us) c') (hbudget : c.budget ≤ n) :
    ∃ c1, inner.expr.Gives c condition c1 ∧ inner.block.Gives c1 body c' := by
  obtain ⟨c1, h1, h2⟩ := htakes.split
  have hb1 := h1.budget_le
  have hfirst := first_of_starts Body.starts hbody h2
  have hcondition := hinner.expr.gives hcondition h1 (by rw [hfirst]; rfl) hbudget
  have hbody := hinner.block.gives hbody h2 trivial (by omega)
  exact ⟨c1, hcondition, hbody⟩

theorem chain_accepts : Accepts (n + 1) (chain inner) Conditional (· ≠ .kwElse) := by
  refine ⟨fun {ts chain c c'} h htakes hends hbudget => ?_⟩
  cases h with
  | only hstart hcondition hbody =>
    obtain ⟨c1, h1, h2⟩ := htakes.uncons
    have hb1 := h1.budget_one
    obtain ⟨c2, hcondition, hbody⟩ := guarded_gives hinner hcondition hbody h2 (by omega)
    exact (Gives.want h1 hstart).bind (hcondition.bind (hbody.bind ((Gives.accept_false hends).bind (.ite_false
      (.spanned htakes)))))
  | orElse hstart hcondition hbody hsign hother =>
    obtain ⟨c3, h, h'⟩ := htakes.split
    obtain ⟨c1, h1, h2⟩ := h.uncons
    obtain ⟨c4, h3, h4⟩ := h'.uncons
    have hb1 := h1.budget_one
    have hb2 := h2.budget_le
    have hb3 := h3.budget_le
    have hfirst : c4.token.kind ≠ .kwIf := first_of_starts (Body.starts.ne (by decide)) hother h4
    obtain ⟨c2, hcondition, hbody⟩ := guarded_gives hinner hcondition hbody h2 (by omega)
    have hother := hinner.block.gives hother h4 trivial (by omega)
    refine (Gives.want h1 hstart).bind (hcondition.bind (hbody.bind ((Gives.accept_true h3 hsign).bind (.ite_true ?_))))
    exact (Gives.has_false hfirst).bind (.ite_false (hother.bind (.spanned htakes)))
  | orIf hstart hcondition hbody hsign hnext =>
    obtain ⟨c3, h, h'⟩ := htakes.split
    obtain ⟨c1, h1, h2⟩ := h.uncons
    obtain ⟨c4, h3, h4⟩ := h'.uncons
    have hb1 := h1.budget_one
    have hb2 := h2.budget_le
    have hb3 := h3.budget_le
    have hfirst := first_of_starts Conditional.starts hnext h4
    obtain ⟨c2, hcondition, hbody⟩ := guarded_gives hinner hcondition hbody h2 (by omega)
    have hnext := hinner.chain.gives hnext h4 hends (by omega)
    refine (Gives.want h1 hstart).bind (hcondition.bind (hbody.bind ((Gives.accept_true h3 hsign).bind (.ite_true ?_))))
    exact (Gives.has_true hfirst).bind (.ite_true (hnext.bind (.spanned htakes)))

theorem declaration_accepts : Accepts n (declaration inner) Declaration fun _ => True := by
  refine ⟨fun {ts stmt c c'} h htakes _ hbudget => ?_⟩
  cases h with
  | plain hstart hmodes hname hcolon hlabel hsemi =>
    obtain ⟨c5, h, h3⟩ := htakes.split
    obtain ⟨c1, h1, h2⟩ := h.uncons
    have hend := h3.kind_eq hsemi
    have hassign : c5.token.kind ≠ .assign := by simp [hend]
    obtain ⟨c2, c3, c4, hmodes, hname, hcolon, hlabel⟩ := binder_gives hmodes hname hcolon hlabel h2 (by simp [hend])
    refine (Gives.want h1 hstart).bind (hmodes.bind
      (hname.bind (hcolon.bind ((Gives.budget c4).bind (hlabel.bind ?_)))))
    exact (Gives.accept_false hassign).bind (.ite_false ((Gives.pure none c5).bind ((Gives.want h3 hsemi).bind
      (.spanned htakes))))
  | valued hstart hmodes hname hcolon hlabel hsign hinit hsemi =>
    obtain ⟨c7, h, h5⟩ := htakes.split
    obtain ⟨c5, h, h'⟩ := h.split
    obtain ⟨c1, h1, h2⟩ := h.uncons
    obtain ⟨c6, h3, h4⟩ := h'.uncons
    have hb3 := (h.append h3).budget_le
    obtain ⟨c2, c3, c4, hmodes, hname, hcolon, hlabel⟩ :=
      binder_gives hmodes hname hcolon hlabel h2 (by simp [h3.kind_eq hsign])
    have hinit := hinner.expr.gives hinit h4 (by rw [h5.kind_eq hsemi]; rfl) (by omega)
    refine (Gives.want h1 hstart).bind (hmodes.bind
      (hname.bind (hcolon.bind ((Gives.budget c4).bind (hlabel.bind ?_)))))
    exact (Gives.accept_true h3 hsign).bind (.ite_true (hinit.bind ((Gives.pure _ c7).bind ((Gives.want h5 hsemi).bind
      (.spanned htakes)))))

theorem loop_accepts : Accepts n (loop inner) Loop fun _ => True := by
  refine ⟨fun {ts stmt c c'} h htakes _ hbudget => ?_⟩
  cases h with
  | mk hstart hcondition hbody =>
    obtain ⟨c1, h1, h2⟩ := htakes.uncons
    have hb1 := h1.budget_le
    obtain ⟨c2, hcondition, hbody⟩ := guarded_gives hinner hcondition hbody h2 (by omega)
    exact (Gives.want h1 hstart).bind (hcondition.bind (hbody.bind (.spanned htakes)))

theorem giveBack_accepts : Accepts n (giveBack inner) Return fun _ => True := by
  refine ⟨fun {ts stmt c c'} h htakes _ hbudget => ?_⟩
  cases h with
  | plain hstart hsemi =>
    obtain ⟨c1, h1, h2⟩ := htakes.uncons
    exact (Gives.want h1 hstart).bind ((Gives.has_true (h2.kind_eq hsemi)).bind (.ite_true ((Gives.pure none c1).bind
      ((Gives.want h2 hsemi).bind (.spanned htakes)))))
  | valued hstart hvalue hsemi =>
    obtain ⟨c2, h, h3⟩ := htakes.split
    obtain ⟨c1, h1, h2⟩ := h.uncons
    have hb1 := h1.budget_le
    have hfirst : c1.token.kind ≠ .semi := first_of_starts (Expression.starts.ne (by decide)) hvalue h2
    have hvalue := hinner.expr.gives hvalue h2 (by rw [h3.kind_eq hsemi]; rfl) (by omega)
    exact (Gives.want h1 hstart).bind ((Gives.has_false hfirst).bind (.ite_false (hvalue.bind ((Gives.pure _ c2).bind
      ((Gives.want h3 hsemi).bind (.spanned htakes))))))

/-- A statement can end where no `else` and no semicolon follows: one would go on with a condition, the other with a
    match. -/
theorem stmt_accepts : Accepts n (stmt inner) Statement fun kind => kind ≠ .kwElse ∧ kind ≠ .semi := by
  refine ⟨fun {ts stmt c c'} h htakes hends hbudget => ?_⟩
  refine (Gives.current rfl).bind ?_
  cases h with
  | decl hdecl =>
    rw [first_of_starts Declaration.starts hdecl htakes]
    exact (declaration_accepts hinner).gives hdecl htakes trivial hbudget
  | cond hchain =>
    rw [first_of_starts Conditional.starts hchain htakes]
    exact (hinner.chain.gives hchain htakes hends.1 hbudget).bind (.pure _ _)
  | loop hloop =>
    rw [first_of_starts Loop.starts hloop htakes]
    exact (loop_accepts hinner).gives hloop htakes trivial hbudget
  | select hmatch =>
    have hgives := (selection_accepts hinner true).gives hmatch htakes trivial (by omega)
    rw [first_of_starts (Selection.starts true) hmatch htakes]
    exact hgives.bind ((Gives.accept_false hends.2).bind (.pure _ _))
  | selectEnded hmatch hsemi =>
    obtain ⟨c1, h1, h2⟩ := htakes.split
    have hgives := (selection_accepts hinner true).gives hmatch h1 trivial (by omega)
    rw [first_of_starts (Selection.starts true) hmatch h1]
    exact hgives.bind ((Gives.accept_true h2 hsemi).bind (.pure _ _))
  | ret hreturn =>
    rw [first_of_starts Return.starts hreturn htakes]
    exact (giveBack_accepts hinner).gives hreturn htakes trivial hbudget
  | block hbody =>
    rw [first_of_starts Body.starts hbody htakes]
    exact (hinner.block.gives hbody htakes trivial hbudget).bind (.pure _ _)
  | expr hvalue hstart hsemi =>
    have hspan := Gives.spanFrom htakes (by simp) (hvalue.start_eq _)
    obtain ⟨c1, h1, h2⟩ := htakes.split
    have hfirst := first_of_starts Expression.starts hvalue h1
    have hmatch : c.token.kind ≠ .kwMatch := by
      obtain ⟨t, us, rfl, -⟩ := Expression.starts.exists_cons hvalue
      rw [h1.token_eq]
      exact hstart t rfl
    have hvalue := hinner.expr.gives hvalue h1 (by rw [h2.kind_eq hsemi]; rfl) hbudget
    split
    · next hkind => exact absurd hfirst (by rw [hkind]; decide)
    · next hkind => exact absurd hfirst (by rw [hkind]; decide)
    · next hkind => exact absurd hfirst (by rw [hkind]; decide)
    · next hkind => exact absurd hkind hmatch
    · next hkind => exact absurd hfirst (by rw [hkind]; decide)
    · next hkind => exact absurd hfirst (by rw [hkind]; decide)
    · exact hvalue.bind ((Gives.want h2 hsemi).bind (hspan.bind (.pure _ _)))

theorem block_accepts : Accepts (n + 1) (block inner) Body fun _ => True := by
  refine ⟨fun {ts body c c'} h htakes _ hbudget => ?_⟩
  cases h with
  | mk hleft hstmts hright =>
    obtain ⟨c2, h, h3⟩ := htakes.split
    obtain ⟨c1, h1, h2⟩ := h.uncons
    have hb1 := h1.budget_one
    have hstart : Starts Statement fun kind => kind ≠ .rbrace ∧ kind ≠ .kwElse ∧ kind ≠ .semi :=
      Statement.starts.mono (by intro kind h; refine ⟨?_, ?_, ?_⟩ <;> rintro rfl <;> cases h)
    have hstmts := (stmt_accepts hinner).manyUntil hstart (by decide) hstmts h2 (h3.kind_eq hright) (by omega)
      (Nat.le_refl c1.budget)
    exact (Gives.want h1 hleft).bind ((Gives.budget c1).bind (hstmts.bind ((Gives.advance h3).bind
      (.spanned htakes))))

end Layer

theorem phrases_accept : ∀ n, (phrases n).Accepts n
  | 0 => ⟨.zero _ _ _, .zero _ _ _, .zero _ _ _, .zero _ _ _⟩
  | n + 1 =>
    have h := phrases_accept n
    ⟨expr_accepts h, unary_accepts h, chain_accepts h, block_accepts h⟩

theorem param_accepts (n : Nat) : Accepts n param Parameter (· ≠ .lt) := by
  refine ⟨fun {ts p c c'} h htakes hends _ => ?_⟩
  cases h with
  | mk hmodes hname hcolon hlabel =>
    have hspan := Gives.spanFrom htakes (by simp) (htakes.start_eq (by simp))
    obtain ⟨c1, c2, c3, hmodes, hname, hcolon, hlabel⟩ := binder_gives hmodes hname hcolon hlabel htakes hends
    exact (Gives.current rfl).bind (hmodes.bind (hname.bind
      (hcolon.bind ((Gives.budget c3).bind (hlabel.bind (hspan.bind (.pure _ _)))))))

/-- Names of variants end before what is no comma, or with a comma that no name follows. -/
theorem variants_give {names : List String} {c1 c' : Cursor} (h : Separated Name ts names) (htakes : c.Takes ts c1)
    (hend : c' = c1 ∧ c1.token.kind ≠ .comma ∨
      ∃ comma, comma.kind = .comma ∧ c1.Takes [comma] c' ∧ c'.token.kind ≠ .ident) {n : Nat} (hn : c.budget ≤ n) :
    (variants n).Gives c names c' := by
  have hpos := c.budget_pos
  obtain ⟨n, rfl⟩ : ∃ k, n = k + 1 := ⟨n - 1, by omega⟩
  induction h generalizing c n with
  | one hitem =>
    obtain ⟨hname⟩ := hitem
    refine (Gives.want htakes hname).bind ?_
    rcases hend with ⟨rfl, hlast⟩ | ⟨comma, hcomma, h1, hlast⟩
    · exact (Gives.accept_false hlast).bind (.ite_false (.pure _ _))
    · exact (Gives.accept_true h1 hcomma).bind (.ite_true ((Gives.has_false hlast).bind (.ite_false (.pure _ _))))
  | more hitem hcomma hrest ih =>
    obtain ⟨hname⟩ := hitem
    obtain ⟨c2, h1, h⟩ := htakes.split
    obtain ⟨c3, h2, h3⟩ := h.uncons
    have hb1 := h1.budget_le
    have hb2 := h2.budget_one
    have hpos3 := c3.budget_pos
    have hfirst := first_of_starts Name.starts.separated hrest h3
    obtain ⟨n, rfl⟩ : ∃ k, n = k + 1 := ⟨n - 1, by omega⟩
    have hrest := ih h3 hpos3 n (by omega)
    exact (Gives.want h1 hname).bind ((Gives.accept_true h2 hcomma).bind (.ite_true ((Gives.has_true hfirst).bind
      (.ite_true (hrest.bind (.pure _ _))))))

theorem enumDef_accepts (n : Nat) : Accepts n enumDef EnumDefinition fun _ => True := by
  refine ⟨fun {ts e c c'} h htakes _ _ => ?_⟩
  cases h with
  | plain hstart hname hleft hvariants hright =>
    obtain ⟨c4, h, h5⟩ := htakes.split
    obtain ⟨c1, h1, h⟩ := h.uncons
    obtain ⟨c2, h2, h⟩ := h.uncons
    obtain ⟨c3, h3, h4⟩ := h.uncons
    have hvariants := variants_give hvariants h4 (.inl ⟨rfl, by simp [h5.kind_eq hright]⟩) (Nat.le_refl _)
    exact (Gives.want h1 hstart).bind ((Gives.want h2 hname).bind ((Gives.want h3 hleft).bind ((Gives.budget c3).bind
      (hvariants.bind ((Gives.want h5 hright).bind (.spanned htakes))))))
  | comma hstart hname hleft hvariants hcomma hright =>
    obtain ⟨c4, h, h'⟩ := htakes.split
    obtain ⟨c1, h1, h⟩ := h.uncons
    obtain ⟨c2, h2, h⟩ := h.uncons
    obtain ⟨c3, h3, h4⟩ := h.uncons
    obtain ⟨c5, h5, h6⟩ := h'.uncons
    have hvariants := variants_give hvariants h4 (.inr ⟨_, hcomma, h5, by simp [h6.kind_eq hright]⟩) (Nat.le_refl _)
    exact (Gives.want h1 hstart).bind ((Gives.want h2 hname).bind ((Gives.want h3 hleft).bind ((Gives.budget c3).bind
      (hvariants.bind ((Gives.want h6 hright).bind (.spanned htakes))))))

/-- A function up to the end of its parameters. -/
theorem signature_gives {start name left right : Token} {params : List Param} {c' : Cursor}
    (hstart : start.kind = .kwFn)
    (hname : name.kind = .ident) (hleft : left.kind = .lparen) (hparams : Listed Parameter ts params)
    (hright : right.kind = .rparen) (htakes : c.Takes (start :: name :: left :: ts ++ [right]) c') :
    ∃ c1 c2 c3 c4, (want .kwFn).Gives c start c1 ∧ (want .ident).Gives c1 name c2 ∧ (want .lparen).Gives c2 left c3 ∧
      (listed param .rparen).Gives c3 params c4 ∧ (want .rparen).Gives c4 right c' := by
  obtain ⟨c4, h, h5⟩ := htakes.split
  obtain ⟨c1, h1, h⟩ := h.uncons
  obtain ⟨c2, h2, h⟩ := h.uncons
  obtain ⟨c3, h3, h4⟩ := h.uncons
  have hparams := (param_accepts c3.budget).listed .rparen nofun nofun nofun (Parameter.starts.ne (by decide)) hparams
    h4 (h5.kind_eq hright) (Nat.le_refl _)
  exact ⟨c1, c2, c3, c4, .want h1 hstart, .want h2 hname, .want h3 hleft, hparams, .want h5 hright⟩

theorem funcDef_accepts {n : Nat} {inner : Phrases} (hinner : inner.Accepts n) :
    Accepts n (funcDef inner) FunctionDefinition fun _ => True := by
  refine ⟨fun {ts f c c'} h htakes _ hbudget => ?_⟩
  cases h with
  | plain hstart hname hleft hparams hright hbody =>
    obtain ⟨c5, h1, h2⟩ := htakes.split
    have hb1 := h1.budget_le
    have harrow : c5.token.kind ≠ .arrow := first_of_starts (Body.starts.ne (by decide)) hbody h2
    obtain ⟨c1, c2, c3, c4, hstart, hname, hleft, hparams, hright⟩ :=
        signature_gives hstart hname hleft hparams hright h1
    have hbody := hinner.block.gives hbody h2 trivial (by omega)
    refine hstart.bind (hname.bind (hleft.bind (hparams.bind (hright.bind ?_))))
    exact (Gives.accept_false harrow).bind (.ite_false ((Gives.pure none c5).bind (hbody.bind (.spanned htakes))))
  | returning hstart hname hleft hparams hright harrow hresult hbody =>
    obtain ⟨c7, h, h4⟩ := htakes.split
    have hb := h.budget_le
    obtain ⟨c5, h1, h⟩ := h.split
    obtain ⟨c6, h2, h3⟩ := h.uncons
    have hlt : c7.token.kind ≠ .lt := first_of_starts (Body.starts.ne (by decide)) hbody h4
    obtain ⟨c1, c2, c3, c4, hstart, hname, hleft, hparams, hright⟩ :=
        signature_gives hstart hname hleft hparams hright h1
    have hresult := (typeLabel_accepts c6.budget).gives hresult h3 hlt (Nat.le_refl _)
    have hbody := hinner.block.gives hbody h4 trivial (by omega)
    refine hstart.bind (hname.bind (hleft.bind (hparams.bind (hright.bind ?_))))
    exact (Gives.accept_true h2 harrow).bind (.ite_true ((Gives.budget c6).bind (hresult.bind ((Gives.pure _ c7).bind
      (hbody.bind (.spanned htakes))))))

theorem definition_accepts {n : Nat} {inner : Phrases} (hinner : inner.Accepts n) :
    Accepts n (definition inner) Definition fun _ => True := by
  refine ⟨fun {ts d c c'} h htakes _ hbudget => ?_⟩
  refine (Gives.current rfl).bind ?_
  cases h with
  | enum henum =>
    rw [first_of_starts EnumDefinition.starts henum htakes]
    exact ((enumDef_accepts n).gives henum htakes trivial hbudget).bind (.pure _ _)
  | func hfunc =>
    rw [first_of_starts FunctionDefinition.starts hfunc htakes]
    exact ((funcDef_accepts hinner).gives hfunc htakes trivial hbudget).bind (.pure _ _)

theorem program_gives {p : Program Unit} {c' : Cursor} (h : File ts p) (htakes : c.Takes ts c')
    (hend : c'.token.kind = .eof) : program.Gives c p c' := by
  obtain ⟨hdefs⟩ := h
  have hstart : Starts Definition fun kind => kind ≠ .eof ∧ True := (Definition.starts.ne (by decide)).mono fun _ h =>
      ⟨h, trivial⟩
  have hdefs := (definition_accepts (phrases_accept c.budget)).manyUntil hstart trivial hdefs htakes hend
    (Nat.le_refl _) (Nat.le_refl c.budget)
  exact (Gives.budget c).bind (hdefs.bind (.pure _ _))

end Parser

/-- What is taken up to the end of a text is all of it. -/
theorem Token.eq_of_takes_to_eof {eof : Token} {rest : List (Except SourceError Token)}
    (h : (ts ++ [eof]).map .ok = us.map .ok ++ .ok t :: rest) (hts : ∀ u ∈ ts, u.kind ≠ .eof)
    (ht : t.kind = .eof) : us = ts := by
  induction ts generalizing us with
  | nil =>
    cases us with
    | nil => rfl
    | cons => simp at h
  | cons u ts ih =>
    cases us with
    | nil =>
      obtain ⟨rfl, -⟩ : u = t ∧ _ := by simpa using h
      exact absurd ht (hts u List.mem_cons_self)
    | cons v us =>
      obtain ⟨rfl, htail⟩ : u = v ∧ (ts ++ [eof]).map .ok = us.map .ok ++ .ok t :: rest := by simpa using h
      rw [ih htail fun w hw => hts w (List.mem_cons_of_mem u hw)]

namespace Program

/-- The grammar is exact. The tokens of a text are read as a program if and only if they derive it, and they derive no
    other. -/
theorem grammar_exact {ts : List Token} {eof : Token} (hts : ∀ t ∈ ts, t.kind ≠ .eof) (heof : eof.kind = .eof) :
    (∀ p, ofTokens ((ts ++ [eof]).map .ok) = .ok p ↔ Grammar.File ts p) ∧
      ∀ p p', Grammar.File ts p → Grammar.File ts p' → p = p' := by
  obtain ⟨c, hstart, hc⟩ : ∃ c, Cursor.start ((ts ++ [eof]).map .ok) = .ok c ∧
      .ok c.token :: c.ahead = (ts ++ [eof]).map .ok := by
    cases ts <;> exact ⟨_, rfl, rfl⟩
  have hexact : ∀ p, ofTokens ((ts ++ [eof]).map .ok) = .ok p ↔ Grammar.File ts p := by
    intro p
    rw [ofTokens_eq_ok_iff hstart]
    constructor
    · rintro ⟨c', hgives⟩
      obtain ⟨us, hfile, htakes, hend⟩ := Parser.program_leads c p c' hgives
      rw [← Token.eq_of_takes_to_eof (hc.symm.trans htakes.ahead_eq) hts hend]
      exact hfile
    · intro hfile
      rw [List.map_append, List.map_singleton] at hc
      obtain ⟨c', htakes, hend⟩ := Cursor.Takes.exists_of_ahead hc
      exact ⟨c', Parser.program_gives hfile htakes (hend ▸ heof)⟩
  refine ⟨hexact, fun p p' hfile hfile' => ?_⟩
  have hp := (hexact p).2 hfile
  rw [(hexact p').2 hfile'] at hp
  exact (Except.ok.inj hp).symm

/-- A text with most kinds of phrases. -/
def sampler : Source :=
  .ofText "enum E { A, }
fn f(e: E) { x = y = - -1 - g(2)(3); match e { E.A => { } _ => 4, } }"

def samplerTokens : List Token :=
  sampler.tokens.filterMap (·.toOption)

theorem grammar_exact_sampler : ∃ ts eof, sampler.tokens = (ts ++ [eof]).map .ok ∧ (∀ t ∈ ts, t.kind ≠ .eof) ∧
    eof.kind = .eof ∧ ∃ p, sampler.parse = .ok p ∧ Grammar.File ts p ∧ ∀ p', Grammar.File ts p' → p' = p := by
  have htokens : sampler.tokens = (samplerTokens.dropLast ++ [samplerTokens.getLastD default]).map .ok := by rfl
  have hts : ∀ t ∈ samplerTokens.dropLast, t.kind ≠ .eof := by decide +kernel
  have heof : (samplerTokens.getLastD default).kind = .eof := by decide +kernel
  obtain ⟨p, hp, -⟩ : ∃ p, sampler.parse = .ok p ∧ True := exists_eq_ok_of_any (by decide +kernel)
  have hparse := hp
  rw [Source.parse, htokens] at hparse
  obtain ⟨hexact, hunique⟩ := grammar_exact hts heof
  have hfile := (hexact p).1 hparse
  exact ⟨_, _, htokens, hts, heof, p, hp, hfile, fun p' hfile' => hunique p' p hfile' hfile⟩

end Program

end LocLang
