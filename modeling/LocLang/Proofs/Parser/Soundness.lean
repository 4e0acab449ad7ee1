import LocLang.Proofs.Parser.Steps

namespace LocLang

variable {c : Cursor} {ts : List Token}

/-- A number has a literal with the other sign. -/
theorem Grammar.LiteralToken.neg?_eq {t : Token} {value : Literal} (h : LiteralToken t value)
    (hnumber : t.kind.isNumber) : value.neg? = some (value.neg?.getD value) := by
  cases h with
  | int | float => rfl
  | true ht | false ht => simp [ht, TokenKind.isNumber] at hnumber

theorem Grammar.Operand.negated {sign : Token} {e : Expr Unit} (h : Operand ts e) (hsign : sign.kind = .minus) :
    Operand (sign :: ts) (Parser.negated sign.span (extent (sign :: ts)) e) := by
  cases e with
  | literal _ value =>
    rw [Parser.negated]
    cases hneg : value.neg? with
    | some => exact .negativeNumber hsign h hneg
    | none =>
      refine .negation hsign h ?_
      rintro _ _ ⟨⟩
      exact hneg
  | ident | variant | binary | assign | call | paren | select => exact .negation hsign h nofun

namespace Parser

open Grammar

theorem typeLabel_reads (n : Nat) : Reads (typeLabel n) TypePhrase := by
  induction n with
  | zero => exact fun _ => .outOfSteps
  | succ _ ih =>
    intro c
    refine .bind (.want fun hname h1 => .bind (.accept (fun hleft h2 => .ite_true ?_) fun _ => .ite_false ?_))
    · refine .bind (.budget (.bind ((ih.separated _).leads fun hargs h3 => .bind (.want fun hright h4 => ?_))))
      have htakes := (h1.append (h2.append h3)).append h4
      exact .spanned htakes (.generic hname hleft hargs hright)
    · exact .spanned h1 (.plain hname)

theorem locality_reads : Reads locality LocalityPhrase := by
  intro c
  refine .bind (.current ?_)
  split
  · next hkind => exact .bind (.advance fun h => .pure ⟨_, .asLocal hkind, h⟩)
  · next hkind => exact .bind (.advance fun h => .pure ⟨_, .asGlobal hkind, h⟩)
  · exact .pure ⟨_, .unspecified, .nil⟩

theorem uniqueness_reads : Reads uniqueness UniquenessPhrase := by
  intro c
  refine .bind (.current ?_)
  split
  · next hkind => exact .bind (.advance fun h => .pure ⟨_, .unique hkind, h⟩)
  · next hkind => exact .bind (.advance fun h => .pure ⟨_, .shared hkind, h⟩)
  · exact .pure ⟨_, .unspecified, .nil⟩

theorem modes_reads : Reads modes ModesPhrase := fun _ =>
  .bind (locality_reads.leads fun hl h1 => .bind (uniqueness_reads.leads fun hu h2 =>
    .pure ⟨_, .mk hl hu, h1.append h2⟩))

theorem literal_leads {Q : Span × Literal → Cursor → Prop}
    (h : ∀ {t value c'}, LiteralToken t value → c.Takes [t] c' → Q (t.span, value) c') : literal.Leads c Q := by
  refine .bind (.current ?_)
  split
  · next hkind =>
    refine .bind (.advance fun h1 => ?_)
    split
    · next value hvalue =>
      rw [Literal.ofDigits?, Option.ite_none_right_eq_some] at hvalue
      obtain ⟨hrange, hvalue⟩ := hvalue
      cases hvalue
      exact .pure (h (.int hkind hrange) h1)
    · exact .fail _ _
  · next hkind =>
    refine .bind (.advance fun h1 => ?_)
    split
    · next value hvalue =>
      obtain ⟨x, hx, rfl⟩ := Option.map_eq_some_iff.1 hvalue
      exact .pure (h (.float hkind hx) h1)
    · exact .fail _ _
  · next hkind => exact .bind (.advance fun h1 => .pure (h (.true hkind) h1))
  · next hkind => exact .bind (.advance fun h1 => .pure (h (.false hkind) h1))
  · exact .reject

theorem variantSign_leads {Q : Bool → Cursor → Prop} (htrue : ∀ {t c'}, IsVariantSign t → c.Takes [t] c' → Q true c')
    (hfalse : Q false c) : variantSign.Leads c Q := by
  refine .bind (.current ?_)
  split
  · next hkind => exact .bind (.advance fun h => .pure (htrue (.inl hkind) h))
  · next hkind => exact .bind (.advance fun h => .pure (htrue (.inr hkind) h))
  · exact .pure hfalse

theorem pattern_reads (n : Nat) : Reads (pattern n) PatternPhrase := by
  induction n with
  | zero => exact fun _ => .outOfSteps
  | succ _ ih =>
    intro c
    have hliteral : Leads (literal >>= fun r => pure (Pattern.literal r.1 r.2)) c fun p c' =>
        ∃ ts, PatternPhrase ts p ∧ c.Takes ts c' :=
      .bind (literal_leads fun hvalue h1 => .pure ⟨_, .literal hvalue, h1⟩)
    refine .bind (.current ?_)
    split
    · exact hliteral
    · exact hliteral
    · exact hliteral
    · exact hliteral
    · next hsign =>
      refine .bind (.advance fun h1 => .bind (.current ?_))
      split
      · next hnumber =>
        refine .bind (literal_leads fun hvalue h2 => ?_)
        have hnegated := hvalue.neg?_eq (h2.token_eq ▸ hnumber)
        have htakes := h1.append h2
        exact .spanned htakes (.negative hsign hvalue hnegated)
      · exact .reject
    · next henum =>
      refine .bind (.advance fun h1 => .bind (variantSign_leads (fun hsign h2 => .ite_true ?_) (.ite_false ?_)))
      · refine .bind (.want fun hname h3 => .bind (.accept (fun hleft h4 => .ite_true ?_) fun _ => .ite_false ?_))
        · refine .bind ((ih.listed .rparen).leads fun hargs h5 => .bind (.want fun hright h6 => ?_))
          have htakes := (((h1.append h2).append h3).append (h4.append h5)).append h6
          exact .bind (.pure (.spanned htakes (.applied henum hsign hname hleft hargs hright)))
        · have htakes := (h1.append h2).append h3
          exact .bind (.pure (.spanned htakes (.variant henum hsign hname)))
      · split
        · next hblank => exact .pure ⟨_, .wildcard henum hblank, h1⟩
        · next hname => exact .pure ⟨_, .bind henum hname, h1⟩
    · exact .reject

theorem manyUntil_eq_nil {α : Type} {x : Parser α} {stop : TokenKind} {n : Nat} {c' : Cursor} {as : List α}
    (hstop : c.token.kind = stop) (h : (manyUntil stop x n).Gives c as c') : as = [] ∧ c' = c := by
  cases n with
  | zero => cases h
  | succ n =>
    rw [Gives, Gives.manyUntil_nil x n hstop] at h
    cases h
    exact ⟨rfl, rfl⟩

/-- Whether phrases are read as the grammar says. -/
structure Phrases.Reads (inner : Phrases) : Prop where
  expr : Parser.Reads inner.expr Expression
  unary : Parser.Reads inner.unary Operand
  chain : Parser.Reads inner.chain Conditional
  block : Parser.Reads inner.block Body

section Layer

variable {inner : Phrases} (hinner : inner.Reads)
include hinner

/-- How an arm ends: with a comma, with a block, or before the end of the match. -/
theorem arm_leads (blocks : Bool) (c : Cursor) : (arm inner blocks).Leads c fun a c' => ∃ ts, Case blocks ts a ∧
    ((∃ comma, comma.kind = .comma ∧ c.Takes (ts ++ [comma]) c') ∨
      (c.Takes ts c' ∧ ((∃ span pattern body, a = .block span pattern body) ∨ c'.token.kind = .rbrace))) := by
  refine .bind (.budget (.bind ((pattern_reads _).leads fun hpattern h1 => .bind (.want fun harrow h2 => .bind (.has
    (fun _ => .ite_true ?_) fun _ => .ite_false ?_)))))
  · split
    · next hblocks =>
      subst hblocks
      refine .bind (hinner.block.leads fun hbody h3 => ?_)
      have htakes := h1.append (h2.append h3)
      refine .bind (.spanFrom htakes (by simp) (hpattern.start_eq _)
        (.bind (.accept (fun hcomma h4 => .pure ?_) fun _ => .pure ?_)))
      · exact ⟨_, .block hpattern harrow hbody, .inl ⟨_, hcomma, htakes.append h4⟩⟩
      · exact ⟨_, .block hpattern harrow hbody, .inr ⟨htakes, .inl ⟨_, _, _, rfl⟩⟩⟩
    · exact .bind (.current (.fail _ _))
  · refine .bind (hinner.expr.leads fun hvalue h3 => ?_)
    have htakes := h1.append (h2.append h3)
    refine .bind (.spanFrom htakes (by simp) (hpattern.start_eq _)
      (.bind (.accept (fun hcomma h4 => .ite_true (.pure ?_)) fun _ =>
      .ite_false (.bind (.has (fun hend => .ite_true (.pure ?_)) fun _ => .ite_false .reject)))))
    · exact ⟨_, .value hpattern harrow hvalue, .inl ⟨_, hcomma, htakes.append h4⟩⟩
    · exact ⟨_, .value hpattern harrow hvalue, .inr ⟨htakes, .inr hend⟩⟩

theorem arms_leads (blocks : Bool) (n : Nat) (c : Cursor) :
    (manyUntil .rbrace (arm inner blocks) n).Leads c fun arms c' =>
    ∃ ts, Arms blocks ts arms ∧ c.Takes ts c' ∧ c'.token.kind = .rbrace := by
  induction n generalizing c with
  | zero => exact .outOfSteps
  | succ _ ih =>
    refine .bind (.has (fun hend => .ite_true (.pure ⟨_, .none, .nil, hend⟩)) fun _ =>
      .ite_false (.bind fun a c1 harm => .bind fun arms c2 hgives => .pure ?_))
    obtain ⟨us, hrest, h2, hend⟩ := ih c1 arms c2 hgives
    obtain ⟨ts, hcase, ⟨comma, hcomma, h1⟩ | ⟨h1, ⟨span, pattern, body, rfl⟩ | hlast⟩⟩ :=
        arm_leads hinner blocks c a c1 harm
    · have htakes := h1.append h2
      rw [List.append_assoc] at htakes
      exact ⟨_, .comma hcase hcomma hrest, htakes, hend⟩
    · exact ⟨_, .block hcase hrest, h1.append h2, hend⟩
    · obtain ⟨rfl, rfl⟩ := manyUntil_eq_nil hlast hgives
      exact ⟨_, .last hcase, h1, hlast⟩

theorem selection_reads (blocks : Bool) : Reads (selection inner blocks) (Selection blocks) := by
  intro c
  refine .bind (.want fun hstart h1 => .bind (hinner.expr.leads fun hscrutinee h2 => .bind (.want fun hleft h3 =>
    .bind (.budget (.bind fun arms c4 hgives => .bind (.advance fun h5 => ?_))))))
  obtain ⟨us, harms, h4, hright⟩ := arms_leads hinner blocks _ _ arms c4 hgives
  have htakes := (h1.append h2).append ((h3.append h4).append h5)
  exact .spanned htakes (.mk hstart hscrutinee hleft harms hright)

theorem atom_reads : Reads (atom inner) Atom := by
  intro c
  have hliteral : Leads (literal >>= fun r => pure (Expr.literal r.1 r.2 : Expr Unit)) c fun e c' =>
      ∃ ts, Atom ts e ∧ c.Takes ts c' :=
    .bind (literal_leads fun hvalue h1 => .pure ⟨_, .literal hvalue, h1⟩)
  refine .bind (.current ?_)
  split
  · exact hliteral
  · exact hliteral
  · exact hliteral
  · exact hliteral
  · next henum =>
    refine .bind (.advance fun h1 => .bind (variantSign_leads (fun hsign h2 => .ite_true ?_) (.ite_false ?_)))
    · exact .bind (.want fun hname h3 => .pure ⟨_, .variant henum hsign hname, (h1.append h2).append h3⟩)
    · exact .pure ⟨_, .name henum, h1⟩
  · next hleft =>
    refine .bind (.advance fun h1 => .bind (hinner.expr.leads fun he h2 => .bind (.want fun hright h3 => ?_)))
    have htakes := (h1.append h2).append h3
    exact .spanned htakes (.paren hleft he hright)
  · exact .bind ((selection_reads hinner false).leads fun hmatch h => .pure ⟨_, .select hmatch, h⟩)
  · exact .reject

/-- Calls go on from what was read since the cursor `c0`. -/
theorem calls_leads {c0 : Cursor} {callee : Expr Unit} (hcallee : Primary ts callee) (h0 : c0.Takes ts c)
    (n : Nat) : (calls inner n callee).Leads c fun e c' => ∃ ts, Primary ts e ∧ c0.Takes ts c' := by
  induction n generalizing c ts callee with
  | zero => exact .outOfSteps
  | succ _ ih =>
    refine .bind (.accept (fun hleft h1 => .ite_true ?_) fun _ => .ite_false (.pure ⟨_, hcallee, h0⟩))
    refine .bind ((hinner.expr.listed .rparen).leads fun hargs h2 => .bind (.want fun hright h3 => ?_))
    have htakes := h0.append ((h1.append h2).append h3)
    exact .bind (.spanFrom htakes (by simp) (hcallee.start_eq _) (ih (.call hcallee hleft hargs hright) htakes))

theorem unary_reads : Reads (unary inner) Operand := by
  intro c
  refine .bind (.current (.bind (.accept (fun hsign h1 => .ite_true ?_) fun _ => .ite_false ?_)))
  · refine .bind (hinner.unary.leads fun hoperand h2 => ?_)
    have htakes := h1.append h2
    refine .bind (.spanFrom htakes (by simp) (by rw [h1.token_eq]; rfl) (.pure ?_))
    rw [h1.token_eq]
    exact ⟨_, hoperand.negated hsign, htakes⟩
  · exact .bind ((atom_reads hinner).leads fun hatom h1 => .bind (.budget
      fun e c' hgives => by
        obtain ⟨ts, hprimary, h⟩ := calls_leads hinner (.atom hatom) h1 _ e c' hgives
        exact ⟨ts, .primary hprimary, h⟩))

omit hinner in
/-- Operators go on from what was read since the cursor `c0`. An operator that comes next binds no tighter than those
    that were read, and none that could still be taken is left. -/
theorem climb_leads {operand : Parser (Expr Unit)} (hoperand : Reads operand Operand) {c0 : Cursor}
    {lhs : Expr Unit} {k limit : Nat} (hlhs : Layered Operand k ts lhs) (h0 : c0.Takes ts c) (hk : k ≤ limit)
    (hnext : ∀ op, BinaryOp.ofToken? c.token.kind = some op → k ≤ op.level + 1) (n : Nat) :
    (climb operand n limit lhs).Leads c fun e c' => ∃ ts, Layered Operand limit ts e ∧ c0.Takes ts c' ∧
      ∀ op, BinaryOp.ofToken? c'.token.kind = some op → limit ≤ op.level := by
  induction n generalizing c0 c ts lhs k limit with
  | zero => exact .outOfSteps
  | succ _ ih =>
    rw [climb_succ]
    refine .bind (.bind (.current (.pure ?_)))
    cases hop : (BinaryOp.ofToken? c.token.kind).filter (·.level < limit) with
    | none =>
      refine .pure ⟨ts, hlhs.mono hk, h0, fun op hop' => ?_⟩
      have hnot := (Option.filter_eq_none_iff.1 hop) op hop'
      simpa using hnot
    | some op =>
      obtain ⟨hop, hlevel⟩ := Option.filter_eq_some_iff.1 hop
      rw [decide_eq_true_eq] at hlevel
      refine .bind (.advance fun h1 => .bind (hoperand.leads fun hfirst h2 => .bind fun rhs c3 hgives => ?_))
      obtain ⟨us, hrhs, h3, hrest⟩ := ih (.operand hfirst) h2 (Nat.zero_le _) (fun _ _ => Nat.zero_le _) rhs c3 hgives
      have hts := (Layered.starts Operand.starts _).ne_nil hlhs
      have hus := (Layered.starts Operand.starts _).ne_nil hrhs
      have htakes := h0.append (h1.append h3)
      rw [hlhs.span_eq, hrhs.span_eq, extent_through hts hus c.token]
      exact ih (.binary (hlhs.mono (hnext op hop)) hop hrhs) htakes hlevel (fun op' hop' =>
        Nat.succ_le_succ (hrest op' hop'))

theorem expr_reads : Reads (expr inner) Expression := by
  intro c
  refine .bind (.bind ((unary_reads hinner).leads fun hfirst h1 => .bind (.budget fun lhs c2 hgives => ?_)))
  obtain ⟨ts, hlhs, h2, -⟩ := climb_leads (unary_reads hinner) (.operand hfirst) h1 (Nat.zero_le _)
    (fun _ _ => Nat.zero_le _) _ lhs c2 hgives
  refine .bind (.accept (fun hsign h3 => .ite_true ?_) fun _ => .ite_false (.pure ⟨_, .operation hlhs, h2⟩))
  refine .bind (hinner.expr.leads fun hrhs h4 => .pure ?_)
  have hts := (Layered.starts Operand.starts _).ne_nil hlhs
  rw [hlhs.span_eq, hrhs.span_eq, extent_through hts (Expression.starts.ne_nil hrhs)]
  exact ⟨_, .assign hlhs hsign hrhs, h2.append (h3.append h4)⟩

theorem chain_reads : Reads (chain inner) Conditional := by
  intro c
  refine .bind (.want fun hstart h1 => .bind (hinner.expr.leads fun hcondition h2 =>
    .bind (hinner.block.leads fun hbody h3 =>
    .bind (.accept (fun hsign h4 => .ite_true (.bind (.has (fun _ => .ite_true ?_) fun _ => .ite_false ?_)))
      fun _ => .ite_false ?_))))
  · refine .bind (hinner.chain.leads fun hnext h5 => ?_)
    have htakes := ((h1.append h2).append h3).append (h4.append h5)
    exact .spanned htakes (.orIf hstart hcondition hbody hsign hnext)
  · refine .bind (hinner.block.leads fun hother h5 => ?_)
    have htakes := ((h1.append h2).append h3).append (h4.append h5)
    exact .spanned htakes (.orElse hstart hcondition hbody hsign hother)
  · have htakes := (h1.append h2).append h3
    exact .spanned htakes (.only hstart hcondition hbody)

theorem declaration_reads : Reads (declaration inner) Declaration := by
  intro c
  refine .bind (.want fun hstart h1 => .bind (modes_reads.leads fun hmodes h2 => .bind (.want fun hname h3 =>
    .bind (.want fun hcolon h4 => .bind (.budget (.bind ((typeLabel_reads _).leads fun hlabel h5 =>
      .bind (.accept (fun hsign h6 => .ite_true ?_) fun _ => .ite_false ?_))))))))
  · refine .bind (hinner.expr.leads fun hinit h7 => .bind (.pure (.bind (.want fun hsemi h8 => ?_))))
    have htakes := (((h1.append h2).append (h3.append (h4.append h5))).append (h6.append h7)).append h8
    exact .spanned htakes (.valued hstart hmodes hname hcolon hlabel hsign hinit hsemi)
  · refine .bind (.pure (.bind (.want fun hsemi h6 => ?_)))
    have htakes := ((h1.append h2).append (h3.append (h4.append h5))).append h6
    exact .spanned htakes (.plain hstart hmodes hname hcolon hlabel hsemi)

theorem loop_reads : Reads (loop inner) Loop := by
  intro c
  refine .bind (.want fun hstart h1 => .bind (hinner.expr.leads fun hcondition h2 =>
    .bind (hinner.block.leads fun hbody h3 => ?_)))
  have htakes := (h1.append h2).append h3
  exact .spanned htakes (.mk hstart hcondition hbody)

theorem giveBack_reads : Reads (giveBack inner) Return := by
  intro c
  refine .bind (.want fun hstart h1 => .bind (.has (fun _ => .ite_true ?_) fun _ => .ite_false ?_))
  · refine .bind (.pure (.bind (.want fun hsemi h2 => ?_)))
    have htakes := h1.append h2
    exact .spanned htakes (.plain hstart hsemi)
  · refine .bind (hinner.expr.leads fun hvalue h2 => .bind (.pure (.bind (.want fun hsemi h3 => ?_))))
    have htakes := (h1.append h2).append h3
    exact .spanned htakes (.valued hstart hvalue hsemi)

theorem stmt_reads : Reads (stmt inner) Statement := by
  intro c
  refine .bind (.current ?_)
  split
  · exact (declaration_reads hinner).leads fun hdecl h => ⟨_, .decl hdecl, h⟩
  · exact .bind (hinner.chain.leads fun hchain h => .pure ⟨_, .cond hchain, h⟩)
  · exact (loop_reads hinner).leads fun hloop h => ⟨_, .loop hloop, h⟩
  · refine .bind ((selection_reads hinner true).leads fun hmatch h1 =>
      .bind (.accept (fun hsemi h2 => .pure ?_) fun _ => .pure ?_))
    · exact ⟨_, .selectEnded hmatch hsemi, h1.append h2⟩
    · exact ⟨_, .select hmatch, h1⟩
  · exact (giveBack_reads hinner).leads fun hreturn h => ⟨_, .ret hreturn, h⟩
  · exact .bind (hinner.block.leads fun hbody h => .pure ⟨_, .block hbody, h⟩)
  · next hmatch _ _ =>
    refine .bind (hinner.expr.leads fun hvalue h1 => .bind (.want fun hsemi h2 => ?_))
    have htakes := h1.append h2
    exact .bind (.spanFrom htakes (by simp) (hvalue.start_eq _)
      (.pure ⟨_, .expr hvalue (fun t ht => h1.head_eq ht ▸ hmatch) hsemi, htakes⟩))

theorem block_reads : Reads (block inner) Body := by
  intro c
  refine .bind (.want fun hleft h1 => .bind (.budget (.bind fun stmts c2 hgives => .bind (.advance fun h3 => ?_))))
  obtain ⟨ts, hstmts, h2, hright⟩ := (stmt_reads hinner).manyUntil .rbrace _ _ stmts c2 hgives
  have htakes := (h1.append h2).append h3
  exact .spanned htakes (.mk hleft hstmts hright)

end Layer

theorem phrases_read : ∀ n, (phrases n).Reads
  | 0 => ⟨fun _ => .outOfSteps, fun _ => .outOfSteps, fun _ => .outOfSteps, fun _ => .outOfSteps⟩
  | n + 1 =>
    have h := phrases_read n
    ⟨expr_reads h, unary_reads h, chain_reads h, block_reads h⟩

theorem param_reads : Reads param Parameter := by
  intro c
  refine .bind (.current (.bind (modes_reads.leads fun hmodes h1 =>
    .bind (.want fun hname h2 => .bind (.want fun hcolon h3 =>
    .bind (.budget (.bind ((typeLabel_reads _).leads fun hlabel h4 => ?_))))))))
  have htakes := h1.append (h2.append (h3.append h4))
  exact .bind (.spanFrom htakes (by simp) (htakes.start_eq (by simp))
    (.pure ⟨_, .mk hmodes hname hcolon hlabel, htakes⟩))

/-- Names of variants, with one more comma or without. -/
theorem variants_leads (n : Nat) (c : Cursor) : (variants n).Leads c fun names c' => ∃ ts, Separated Name ts names ∧
    (c.Takes ts c' ∨ ∃ comma, comma.kind = .comma ∧ c.Takes (ts ++ [comma]) c') := by
  induction n generalizing c with
  | zero => exact .outOfSteps
  | succ _ ih =>
    refine .bind (.want fun hname h1 => .bind (.accept (fun hcomma h2 => .ite_true (.bind (.has (fun _ => .ite_true ?_)
      fun _ => .ite_false ?_))) fun _ => .ite_false ?_))
    · refine .bind fun names c3 hgives => .pure ?_
      obtain ⟨ts, hnames, h3 | ⟨comma, hlast, h3⟩⟩ := ih _ names c3 hgives
      · exact ⟨_, .more (.mk hname) hcomma hnames, .inl (h1.append (h2.append h3))⟩
      · exact ⟨_, .more (.mk hname) hcomma hnames, .inr ⟨comma, hlast, h1.append (h2.append h3)⟩⟩
    · exact .pure ⟨_, .one (.mk hname), .inr ⟨_, hcomma, h1.append h2⟩⟩
    · exact .pure ⟨_, .one (.mk hname), .inl h1⟩

theorem enumDef_reads : Reads enumDef EnumDefinition := by
  intro c
  refine .bind (.want fun hstart h1 => .bind (.want fun hname h2 => .bind (.want fun hleft h3 => .bind (.budget
    (.bind fun names c4 hgives => .bind (.want fun hright h5 => ?_))))))
  obtain ⟨ts, hnames, h4 | ⟨comma, hcomma, h4⟩⟩ := variants_leads _ _ names c4 hgives
  · have htakes := (h1.append (h2.append (h3.append h4))).append h5
    exact .spanned htakes (.plain hstart hname hleft hnames hright)
  · have htakes := h1.append (h2.append (h3.append (h4.append h5)))
    rw [List.append_assoc] at htakes
    exact .spanned htakes (.comma hstart hname hleft hnames hcomma hright)

theorem funcDef_reads {inner : Phrases} (hinner : inner.Reads) : Reads (funcDef inner) FunctionDefinition := by
  intro c
  refine .bind (.want fun hstart h1 => .bind (.want fun hname h2 => .bind (.want fun hleft h3 =>
    .bind ((param_reads.listed .rparen).leads fun hparams h4 => .bind (.want fun hright h5 =>
      .bind (.accept (fun harrow h6 => .ite_true ?_) fun _ => .ite_false ?_))))))
  · refine .bind (.budget (.bind ((typeLabel_reads _).leads fun hresult h7 => .bind (.pure (.bind (hinner.block.leads
      fun hbody h8 => ?_))))))
    have htakes := (((h1.append (h2.append (h3.append h4))).append h5).append (h6.append h7)).append h8
    exact .spanned htakes (.returning hstart hname hleft hparams hright harrow hresult hbody)
  · refine .bind (.pure (.bind (hinner.block.leads fun hbody h6 => ?_)))
    have htakes := ((h1.append (h2.append (h3.append h4))).append h5).append h6
    exact .spanned htakes (.plain hstart hname hleft hparams hright hbody)

theorem definition_reads {inner : Phrases} (hinner : inner.Reads) : Reads (definition inner) Definition := by
  intro c
  refine .bind (.current ?_)
  split
  · exact .bind (enumDef_reads.leads fun henum h => .pure ⟨_, .enum henum, h⟩)
  · exact .bind ((funcDef_reads hinner).leads fun hfunc h => .pure ⟨_, .func hfunc, h⟩)
  · exact .reject

/-- A program is a file up to the end of the text. -/
theorem program_leads (c : Cursor) : program.Leads c fun p c' => ∃ ts, File ts p ∧ c.Takes ts c' ∧
    c'.token.kind = .eof := by
  refine .bind (.budget (.bind fun defs c' hgives => .pure ?_))
  obtain ⟨ts, hdefs, htakes, heof⟩ := (definition_reads (phrases_read _)).manyUntil .eof _ _ defs c' hgives
  exact ⟨ts, .mk hdefs, htakes, heof⟩

end Parser

namespace Program

variable {tokens : List (Except SourceError Token)}

theorem ofTokens_eq_ok_iff (hstart : Cursor.start tokens = .ok c) {p : Program Unit} :
    ofTokens tokens = .ok p ↔ ∃ c', Parser.program.Gives c p c' := by
  have hrun : ofTokens tokens = (Parser.program c >>= fun r => pure r.1) := by
    rw [ofTokens, hstart]
    rfl
  rw [hrun]
  cases hprogram : Parser.program c with
  | error => exact ⟨nofun, fun ⟨_, h⟩ => nomatch hprogram.symm.trans h⟩
  | ok r =>
    constructor
    · rintro ⟨⟩
      exact ⟨r.2, hprogram⟩
    · rintro ⟨c', hgives⟩
      cases hprogram.symm.trans hgives
      rfl

/-- Tokens that denote a program are the tokens of a file, and the end of the text follows. -/
theorem exists_file_of_ofTokens {p : Program Unit} (h : ofTokens tokens = .ok p) :
    ∃ ts eof rest, tokens = ts.map .ok ++ .ok eof :: rest ∧ eof.kind = .eof ∧ Grammar.File ts p := by
  rcases tokens with _ | ⟨e | t, ahead⟩
  · cases h
  · cases h
  · obtain ⟨c', hgives⟩ := (ofTokens_eq_ok_iff rfl).1 h
    obtain ⟨ts, hfile, htakes, heof⟩ := Parser.program_leads _ p c' hgives
    exact ⟨ts, c'.token, c'.ahead, htakes.ahead_eq, heof, hfile⟩

end Program

end LocLang
