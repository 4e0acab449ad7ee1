import LocLang.Proofs.Parser.Grammar

namespace LocLang

open LocLang.Parser List

theorem exists_eq_ok_of_any {ε α : Type} {x : Except ε α} {P : α → Prop} [DecidablePred P]
    (h : x.toOption.any fun a => decide (P a)) : ∃ a, x = .ok a ∧ P a := by
  cases x with
  | error => cases h
  | ok a => exact ⟨a, rfl, by simpa [Except.toOption] using h⟩

namespace Cursor

variable {c c1 c' c'' : Cursor} {t : Token} {ts us : List Token} {rest : List (Except SourceError Token)}

theorem budget_pos (c : Cursor) : 0 < c.budget :=
  Nat.succ_pos _

/-- What moving on by one token does. -/
theorem of_next (h : c.next = .ok c') : c.ahead = .ok c'.token :: c'.ahead ∧ c'.last = c.token.span ∧
    c.budget = c'.budget + 1 := by
  obtain ⟨token, last, ahead, left, left_eq⟩ := c
  match ahead with
  | [] | .error _ :: _ => cases h
  | .ok _ :: _ =>
    cases h
    simp [budget, left_eq]

theorem exists_next {following : Token} (h : c.ahead = .ok following :: rest) :
    ∃ c', c.next = .ok c' ∧ c'.token = following ∧ c'.ahead = rest := by
  obtain ⟨token, last, ahead, left, left_eq⟩ := c
  subst h
  exact ⟨_, rfl, rfl, rfl⟩

/-- Whether taking the tokens `ts` leads from one cursor to another. -/
inductive Takes : Cursor → List Token → Cursor → Prop
  | nil {c : Cursor} : Takes c [] c
  | cons {c c1 c' : Cursor} {ts : List Token} (hnext : c.next = .ok c1) (hrest : Takes c1 ts c') :
      Takes c (c.token :: ts) c'

namespace Takes

theorem append (h : c.Takes ts c1) (h' : c1.Takes us c') : c.Takes (ts ++ us) c' := by
  induction h with
  | nil => exact h'
  | cons hnext _ ih => exact .cons hnext (ih h')

theorem split (h : c.Takes (ts ++ us) c') : ∃ c1, c.Takes ts c1 ∧ c1.Takes us c' := by
  induction ts generalizing c with
  | nil => exact ⟨c, .nil, h⟩
  | cons _ _ ih =>
    cases h with
    | cons hnext hrest =>
      obtain ⟨c1, hts, hus⟩ := ih hrest
      exact ⟨c1, .cons hnext hts, hus⟩

theorem uncons (h : c.Takes (t :: ts) c') : ∃ c1, c.Takes [t] c1 ∧ c1.Takes ts c' :=
  h.split

theorem eq_of_nil (h : c.Takes [] c') : c' = c := by
  cases h
  rfl

theorem token_eq (h : c.Takes (t :: ts) c') : c.token = t := by
  cases h
  rfl

theorem head_eq (h : c.Takes ts c') (ht : t ∈ ts.head?) : c.token = t := by
  cases h with
  | nil => cases ht
  | cons => exact Option.some.inj ht

/-- What is taken starts with the token that the cursor is on. -/
theorem start_eq (h : c.Takes ts c') (hts : ts ≠ []) : c.token.span.start = (extent ts).start := by
  cases h with
  | nil => exact absurd rfl hts
  | cons => rfl

theorem one (h : c.next = .ok c') : c.Takes [c.token] c' :=
  .cons h .nil

theorem next_eq (h : c.Takes [t] c') : c.next = .ok c' := by
  cases h with
  | cons hnext hrest => exact hrest.eq_of_nil ▸ hnext

theorem budget_eq (h : c.Takes ts c') : c.budget = c'.budget + ts.length := by
  induction h with
  | nil => rfl
  | cons hnext =>
    have hone := (of_next hnext).2.2
    rw [length_cons]
    omega

theorem budget_one (h : c.Takes [t] c') : c.budget = c'.budget + 1 :=
  h.budget_eq

theorem budget_le (h : c.Takes ts c') : c'.budget ≤ c.budget := by
  rw [h.budget_eq]
  exact Nat.le_add_right _ _

theorem kind_eq (h : c.Takes (t :: ts) c') {kind : TokenKind} (ht : t.kind = kind) : c.token.kind = kind := by
  rw [h.token_eq, ht]

/-- The last token that was taken. -/
theorem last_eq (h : c.Takes (ts ++ [t]) c') : c'.last = t.span := by
  obtain ⟨c1, -, hlast⟩ := h.split
  rw [(of_next hlast.next_eq).2.1, hlast.token_eq]

/-- What was taken and what is still ahead make up what was ahead. -/
theorem ahead_eq (h : c.Takes ts c') : .ok c.token :: c.ahead = ts.map .ok ++ .ok c'.token :: c'.ahead := by
  induction h with
  | nil => rfl
  | cons hnext _ ih => rw [(of_next hnext).1, ih, map_cons, cons_append]

/-- The span up to the last token that was taken. -/
theorem through_last (h : c.Takes ts c') (hts : ts ≠ []) {span : Span} (hstart : span.start = (extent ts).start) :
    span.through c'.last = extent ts := by
  obtain ⟨ts, t, rfl⟩ := (eq_nil_or_concat ts).resolve_left hts
  rw [concat_eq_append] at h hstart ⊢
  rw [Span.through, h.last_eq, hstart]
  simp [extent]

/-- The tokens ahead can be taken. -/
theorem exists_of_ahead (h : .ok c.token :: c.ahead = ts.map .ok ++ .ok t :: rest) :
    ∃ c', c.Takes ts c' ∧ c'.token = t := by
  induction ts generalizing c with
  | nil => exact ⟨c, .nil, by simpa using (cons.inj h).1⟩
  | cons u ts ih =>
    obtain ⟨hu, hahead⟩ := cons.inj h
    obtain ⟨following, rest', hfollowing⟩ : ∃ v rest', ts.map .ok ++ .ok t :: rest = .ok v :: rest' := by
      cases ts <;> simp
    obtain ⟨c1, hnext, htoken, hrest⟩ := exists_next (hahead.trans hfollowing)
    obtain ⟨c', htakes, hc'⟩ := ih (c := c1) (by rw [htoken, hrest, hfollowing])
    obtain rfl : c.token = u := by simpa using hu
    exact ⟨c', .cons hnext htakes, hc'⟩

end Takes

end Cursor

namespace Parser

variable {α β : Type} {c c0 c1 c' : Cursor} {t : Token} {ts : List Token} {kind : TokenKind}

/-- Whether a parser gives `a` and moves the cursor from `c` to `c'`. -/
def Gives (x : Parser α) (c : Cursor) (a : α) (c' : Cursor) : Prop :=
  x c = .ok (a, c')

namespace Gives

variable {x y : Parser α} {k : α → Parser β} {a : α} {b : β}

theorem pure (a : α) (c : Cursor) : Gives (pure a) c a c := rfl

theorem bind (hx : x.Gives c a c1) (hk : (k a).Gives c1 b c') : (x >>= k).Gives c b c' := by
  have hbind : (x >>= k) c = (x c >>= fun r => k r.1 r.2) := rfl
  rw [Gives, hbind, hx]
  exact hk

theorem ite_true (hx : x.Gives c a c') : Gives (if true = true then x else y) c a c' := hx

theorem ite_false (hy : y.Gives c a c') : Gives (if false = true then x else y) c a c' := hy

theorem current (h : c.token = t) : current.Gives c t c := by
  subst h
  rfl

theorem budget (c : Cursor) : budget.Gives c c.budget c := rfl

theorem spanFrom (h : c0.Takes ts c) (hts : ts ≠ []) {span : Span} (hstart : span.start = (extent ts).start) :
    (spanFrom span).Gives c (extent ts) c := by
  rw [← h.through_last hts hstart]
  rfl

/-- The last step of a phrase, which says what its tokens extend over. -/
theorem spanned {f : Span → α} (h : c0.Takes (t :: ts) c) :
    (Parser.spanFrom t.span >>= fun s => Pure.pure (f s)).Gives c (f (extent (t :: ts))) c :=
  (spanFrom h (cons_ne_nil t ts) rfl).bind (pure _ c)

theorem has_true (h : c.token.kind = kind) : (has kind).Gives c true c := by
  simp [Gives, has, h]

theorem has_false (h : c.token.kind ≠ kind) : (has kind).Gives c false c := by
  simp [Gives, has, h]

theorem advance (h : c.Takes [t] c') : Parser.advance.Gives c () c' := by
  rw [Gives, Parser.advance, h.next_eq]
  rfl

theorem want (h : c.Takes [t] c') (hkind : t.kind = kind) : (want kind).Gives c t c' := by
  refine (current h.token_eq).bind ?_
  rw [if_pos hkind]
  exact (advance h).bind (pure t c')

theorem accept_true (h : c.Takes [t] c') (hkind : t.kind = kind) : (accept kind).Gives c true c' :=
  (has_true (h.token_eq ▸ hkind)).bind (ite_true ((advance h).bind (pure true c')))

theorem accept_false (h : c.token.kind ≠ kind) : (accept kind).Gives c false c :=
  (has_false h).bind (ite_false (pure false c))

variable {stop : TokenKind} {n : Nat} {as : List α}

theorem manyUntil_nil (x : Parser α) (n : Nat) (hstop : c.token.kind = stop) :
    (manyUntil stop x (n + 1)).Gives c [] c :=
  (has_true hstop).bind (ite_true (pure [] c))

theorem manyUntil_cons (hfirst : c.token.kind ≠ stop) (hx : x.Gives c a c1)
    (hrest : (manyUntil stop x n).Gives c1 as c') : (manyUntil stop x (n + 1)).Gives c (a :: as) c' :=
  (has_false hfirst).bind (ite_false (hx.bind (hrest.bind (pure _ c'))))

end Gives

/-- Whether all that a parser gives from a cursor has the property `Q`. -/
def Leads (x : Parser α) (c : Cursor) (Q : α → Cursor → Prop) : Prop :=
  ∀ a c', x.Gives c a c' → Q a c'

namespace Leads

variable {x y : Parser α} {k : α → Parser β} {a : α} {Q : α → Cursor → Prop} {S : β → Cursor → Prop}

theorem pure (h : Q a c) : Leads (pure a) c Q := by
  rintro _ _ ⟨⟩
  exact h

theorem bind (h : x.Leads c fun a c1 => (k a).Leads c1 S) : (x >>= k).Leads c S := by
  intro b c' hgives
  have hbind : (x >>= k) c = (x c >>= fun r => k r.1 r.2) := rfl
  rw [Gives, hbind] at hgives
  cases hx : x c with
  | error =>
    rw [hx] at hgives
    cases hgives
  | ok r =>
    rw [hx] at hgives
    exact h r.1 r.2 hx b c' hgives

theorem ite_true (h : x.Leads c Q) : Leads (if true = true then x else y) c Q := h

theorem ite_false (h : y.Leads c Q) : Leads (if false = true then x else y) c Q := h

theorem current {Q : Token → Cursor → Prop} (h : Q c.token c) : current.Leads c Q := by
  rintro _ _ ⟨⟩
  exact h

theorem budget {Q : Nat → Cursor → Prop} (h : Q c.budget c) : budget.Leads c Q := by
  rintro _ _ ⟨⟩
  exact h

theorem spanFrom {Q : Span → Cursor → Prop} (htakes : c0.Takes ts c) (hts : ts ≠ []) {span : Span}
    (hstart : span.start = (extent ts).start) (h : Q (extent ts) c) : (spanFrom span).Leads c Q := by
  rintro _ _ ⟨⟩
  rw [htakes.through_last hts hstart]
  exact h

/-- The last step of a phrase, which says what its tokens extend over. -/
theorem spanned {R : List Token → α → Prop} {f : Span → α} (htakes : c0.Takes (t :: ts) c)
    (h : R (t :: ts) (f (extent (t :: ts)))) : (Parser.spanFrom t.span >>= fun s => Pure.pure (f s)).Leads c fun a c' =>
    ∃ us, R us a ∧ c0.Takes us c' :=
  .bind (.spanFrom htakes (cons_ne_nil t ts) rfl (.pure ⟨t :: ts, h, htakes⟩))

theorem has {Q : Bool → Cursor → Prop} (htrue : c.token.kind = kind → Q true c)
    (hfalse : c.token.kind ≠ kind → Q false c) : (has kind).Leads c Q := by
  rintro _ _ ⟨⟩
  by_cases hkind : c.token.kind = kind
  · rw [beq_iff_eq.2 hkind]
    exact htrue hkind
  · rw [beq_eq_false_iff_ne.2 hkind]
    exact hfalse hkind

theorem reject : Leads reject c Q :=
  fun _ _ h => nomatch h

theorem outOfSteps : Leads outOfSteps c Q :=
  fun _ _ h => nomatch h

theorem fail (cause : SyntaxCause) (span : Span) : Leads (fail cause span) c Q :=
  fun _ _ h => nomatch h

theorem advance {Q : Unit → Cursor → Prop} (h : ∀ {c'}, c.Takes [c.token] c' → Q () c') : Parser.advance.Leads c Q := by
  intro _ c' hgives
  rw [Gives, Parser.advance] at hgives
  cases hnext : c.next with
  | error =>
    rw [hnext] at hgives
    cases hgives
  | ok =>
    rw [hnext] at hgives
    cases hgives
    exact h (.one hnext)

theorem want {Q : Token → Cursor → Prop} (h : ∀ {t c'}, t.kind = kind → c.Takes [t] c' →
    Q t c') : (want kind).Leads c Q := by
  refine .bind (.current ?_)
  by_cases hkind : c.token.kind = kind
  · rw [if_pos hkind]
    exact .bind (.advance fun htakes => .pure (h hkind htakes))
  · rw [if_neg hkind]
    exact .reject

theorem accept {Q : Bool → Cursor → Prop} (htrue : ∀ {t c'}, t.kind = kind → c.Takes [t] c' → Q true c')
    (hfalse : c.token.kind ≠ kind → Q false c) : (accept kind).Leads c Q :=
  .bind (.has (fun hkind => .ite_true (.bind (.advance fun htakes => .pure (htrue hkind htakes))))
    (fun hkind => .ite_false (.pure (hfalse hkind))))

end Leads

section Lists

open Grammar

variable {x : Parser α} {R : List Token → α → Prop} {as : List α} {a : α} {n : Nat}

theorem first_of_starts {P : TokenKind → Prop} (hR : Starts R P) (h : R ts a) (htakes : c.Takes ts c') :
    P c.token.kind := by
  obtain ⟨t, us, rfl, ht⟩ := hR.exists_cons h
  rw [htakes.token_eq]
  exact ht

/-- Whether all that a parser gives is a phrase of the tokens that it takes. -/
def Reads (x : Parser α) (R : List Token → α → Prop) : Prop :=
  ∀ c, x.Leads c fun a c' => ∃ ts, R ts a ∧ c.Takes ts c'

theorem Reads.leads (hx : Reads x R) {Q : α → Cursor → Prop}
    (h : ∀ {a ts c'}, R ts a → c.Takes ts c' → Q a c') : x.Leads c Q := by
  intro a c' hgives
  obtain ⟨ts, hphrase, htakes⟩ := hx c a c' hgives
  exact h hphrase htakes

theorem Reads.separated (hx : Reads x R) (n : Nat) : Reads (separated x n) (Separated R) := by
  induction n with
  | zero => exact fun _ => .outOfSteps
  | succ _ ih =>
    intro c
    refine .bind (hx.leads fun hitem h1 => .bind (.accept (fun hcomma h2 => .ite_true ?_) fun _ => .ite_false ?_))
    · exact .bind (ih.leads fun hrest h3 => .pure ⟨_, .more hitem hcomma hrest, h1.append (h2.append h3)⟩)
    · exact .pure ⟨_, .one hitem, h1⟩

theorem Reads.listed (hx : Reads x R) (close : TokenKind) : Reads (listed x close) (Listed R) := by
  intro c
  refine .bind (.has (fun _ => .ite_true ?_) fun _ => .ite_false ?_)
  · exact .pure ⟨_, .none, .nil⟩
  · exact .bind (.budget ((hx.separated _).leads fun hitems h => ⟨_, .some hitems, h⟩))

/-- Repetition ends at its stop. -/
theorem Reads.manyUntil (hx : Reads x R) (stop : TokenKind) (n : Nat) (c : Cursor) :
    (manyUntil stop x n).Leads c fun as c' => ∃ ts, Repeated R ts as ∧ c.Takes ts c' ∧ c'.token.kind = stop := by
  induction n generalizing c with
  | zero => exact .outOfSteps
  | succ _ ih =>
    refine .bind (.has (fun hstop => .ite_true ?_) fun _ => .ite_false ?_)
    · exact .pure ⟨_, .nil, .nil, hstop⟩
    · refine .bind (hx.leads fun hitem h1 => .bind fun as c2 hgives => ?_)
      obtain ⟨us, hrest, h2, hstop⟩ := ih _ as c2 hgives
      exact .pure ⟨_, .cons hitem hrest, h1.append h2, hstop⟩

/-- Whether a parser gives every phrase of the tokens ahead that can end before the token after it, if at most `n`
    tokens are ahead. -/
structure Accepts (n : Nat) (x : Parser α) (R : List Token → α → Prop) (ends : TokenKind → Prop) : Prop where
  gives : ∀ {ts a c c'}, R ts a → c.Takes ts c' → ends c'.token.kind → c.budget ≤ n → x.Gives c a c'

variable {ends : TokenKind → Prop} {m : Nat}

theorem Accepts.zero (x : Parser α) (R : List Token → α → Prop) (ends : TokenKind → Prop) : Accepts 0 x R ends where
  gives {_ _ c _} _ _ _ hbudget := absurd c.budget_pos (Nat.not_lt.2 hbudget)

theorem Accepts.separated (hx : Accepts m x R ends) (hcomma : ends .comma) (h : Separated R ts as)
    (htakes : c.Takes ts c') (hends : ends c'.token.kind) (hlast : c'.token.kind ≠ .comma) (hm : c.budget ≤ m)
    (hn : c.budget ≤ n) : (separated x n).Gives c as c' := by
  have hpos := c.budget_pos
  obtain ⟨n, rfl⟩ : ∃ k, n = k + 1 := ⟨n - 1, by omega⟩
  induction h generalizing c n with
  | one hitem =>
    exact (hx.gives hitem htakes hends hm).bind ((Gives.accept_false hlast).bind (.ite_false (.pure _ _)))
  | more hitem hsign hrest ih =>
    obtain ⟨c1, h1, h'⟩ := htakes.split
    obtain ⟨c2, h2, h3⟩ := h'.uncons
    have hb1 := h1.budget_eq
    have hb2 := h2.budget_eq
    have hpos2 := c2.budget_pos
    rw [length_singleton] at hb2
    obtain ⟨n, rfl⟩ : ∃ k, n = k + 1 := ⟨n - 1, by omega⟩
    have hends1 : ends c1.token.kind := by
      rw [h2.token_eq, hsign]
      exact hcomma
    have hrest := ih h3 (by omega) hpos2 n (by omega)
    exact (hx.gives hitem h1 hends1 hm).bind ((Gives.accept_true h2 hsign).bind (.ite_true (hrest.bind (.pure _ _))))

theorem Accepts.listed (hx : Accepts m x R ends) (close : TokenKind) (hcomma : ends .comma) (hclose : ends close)
    (hne : close ≠ .comma) (hstart : Starts R (· ≠ close)) (h : Listed R ts as) (htakes : c.Takes ts c')
    (hc' : c'.token.kind = close) (hm : c.budget ≤ m) : (listed x close).Gives c as c' := by
  cases h with
  | none =>
    obtain rfl := htakes.eq_of_nil
    exact (Gives.has_true hc').bind (.ite_true (.pure _ _))
  | some hitems =>
    have hfirst : c.token.kind ≠ close := first_of_starts hstart.separated hitems htakes
    have hitems := hx.separated hcomma hitems htakes (hc' ▸ hclose) (hc' ▸ hne) hm (Nat.le_refl c.budget)
    exact (Gives.has_false hfirst).bind (.ite_false ((Gives.budget c).bind hitems))

/-- A repetition of phrases that can end where the next one starts. -/
theorem Accepts.manyUntil (hx : Accepts m x R ends) {stop : TokenKind}
    (hstart : Starts R fun kind => kind ≠ stop ∧ ends kind) (hstop : ends stop) (h : Repeated R ts as)
    (htakes : c.Takes ts c') (hc' : c'.token.kind = stop) (hm : c.budget ≤ m) (hn : c.budget ≤ n) :
    (manyUntil stop x n).Gives c as c' := by
  have hpos := c.budget_pos
  obtain ⟨n, rfl⟩ : ∃ k, n = k + 1 := ⟨n - 1, by omega⟩
  induction h generalizing c n with
  | nil =>
    obtain rfl := htakes.eq_of_nil
    exact .manyUntil_nil x n hc'
  | cons hitem hrest ih =>
    obtain ⟨c1, h1, h2⟩ := htakes.split
    have hfirst := first_of_starts hstart hitem h1
    have hends : ends c1.token.kind := by
      cases hrest with
      | nil =>
        obtain rfl := h2.eq_of_nil
        rw [hc']
        exact hstop
      | cons hitem' _ =>
        obtain ⟨c2, h2, -⟩ := h2.split
        exact (first_of_starts hstart hitem' h2).2
    have hpos1 := c1.budget_pos
    have hbudget : c1.budget < c.budget := by
      obtain ⟨t, us, rfl, -⟩ := hstart.exists_cons hitem
      have hb1 := h1.budget_eq
      rw [length_cons] at hb1
      omega
    obtain ⟨n, rfl⟩ : ∃ k, n = k + 1 := ⟨n - 1, by omega⟩
    exact .manyUntil_cons hfirst.1 (hx.gives hitem h1 hends hm) (ih h2 (by omega) hpos1 n (by omega))

end Lists

end Parser

end LocLang
