import LocLang.Proofs.Parser.Completeness
import LocLang.Proofs.Token.Delivered
import LocLang.Proofs.Tree.Moved

namespace LocLang

open LocLang.Parser Nat

variable {tokens tokens' : List (Except SourceError Token)}

def SourceError.moved (move : Pos → Pos) : SourceError → SourceError
  | malformed cause span => malformed cause (span.moved move)
  | unreadable message => unreadable message

/-- An outcome with its places moved; `f` moves those of a result. -/
def movedOutcome {α β : Type} (move : Pos → Pos) (f : α → β) : Except SourceError α → Except SourceError β
  | .ok a => .ok (f a)
  | .error e => .error (e.moved move)

/-- How tokens differ from others: by their places, and by what cuts them short, if anything does. -/
structure Reading where
  move : Pos → Pos
  stop : Option SourceError

/-- Whether other results are the given ones at other places, through the end of the file or the first error, or these
    are cut short. What comes after that does not matter. -/
inductive Reading.Pairs (r : Reading) : List (Except SourceError Token) → List (Except SourceError Token) → Prop
  | stop {e : SourceError} {rest rest' : List (Except SourceError Token)} (stops : r.stop = some e) :
      r.Pairs (.error e :: rest) rest'
  | malformed {cause : SyntaxCause} {span : Span} {rest rest' : List (Except SourceError Token)}
      (hcause : cause ≠ .outOfSteps) : r.Pairs (.error (.malformed cause span) :: rest)
      (.error (.malformed cause (span.moved r.move)) :: rest')
  | eof {t : Token} {rest rest' : List (Except SourceError Token)} (ht : t.kind = .eof) :
      r.Pairs (.ok t :: rest) (.ok (t.moved r.move) :: rest')
  | token {t : Token} {rest rest' : List (Except SourceError Token)} (hrest : r.Pairs rest rest') :
      r.Pairs (.ok t :: rest) (.ok (t.moved r.move) :: rest')

theorem Reading.pairs_moved (r : Reading) (ts : List Token) {last : Token} (hlast : last.kind = .eof) :
    r.Pairs ((ts ++ [last]).map .ok) ((ts ++ [last]).map fun t => .ok (t.moved r.move)) := by
  induction ts with
  | nil => exact .eof hlast
  | cons _ _ ih => exact .token ih

theorem Cut.pairs {stop : SourceError} (h : Cut stop tokens tokens') :
    Reading.Pairs ⟨id, some stop⟩ tokens tokens' := by
  induction h with
  | stop => exact .stop rfl
  | malformed hcause => exact .malformed hcause
  | token _ ih => exact .token ih

variable {r : Reading} {move : Pos → Pos}

@[simp]
theorem Token.kind_moved (t : Token) : (t.moved move).kind = t.kind := rfl

@[simp]
theorem Token.text_moved (t : Token) : (t.moved move).text = t.text := rfl

@[simp]
theorem Token.span_moved (t : Token) : (t.moved move).span = t.span.moved move := rfl

namespace Cursor

/-- Whether two cursors are on the same token up to its place, and so is what follows unless it is cut short for the
    first. -/
structure Abreast (r : Reading) (c c' : Cursor) : Prop where
  token_eq : c'.token = c.token.moved r.move
  last_eq : c'.last = c.last.moved r.move
  ahead : c.token.kind ≠ .eof → r.Pairs c.ahead c'.ahead

/-- Whether two cursors have moved on by at least `k` tokens and are abreast. -/
structure Paces (r : Reading) (k : Nat) (c c' d d' : Cursor) : Prop where
  abreast : d.Abreast r d'
  budget_le : d.budget + k ≤ c.budget
  budget_le' : d'.budget + k ≤ c'.budget

variable {c c' d d' e e' : Cursor} {j k : Nat}

theorem Abreast.paces (h : c.Abreast r c') : Paces r 0 c c' c c' :=
  ⟨h, Nat.le_refl _, Nat.le_refl _⟩

namespace Paces

theorem trans (h : Paces r j c c' d d') (h' : Paces r k d d' e e') : Paces r (j + k) c c' e e' where
  abreast := h'.abreast
  budget_le := by
    have hle := h.budget_le
    have hle' := h'.budget_le
    omega
  budget_le' := by
    have hle := h.budget_le'
    have hle' := h'.budget_le'
    omega

theorem mono (h : Paces r k c c' d d') (hjk : j ≤ k) : Paces r j c c' d d' where
  abreast := h.abreast
  budget_le := Nat.le_trans (Nat.add_le_add_left hjk _) h.budget_le
  budget_le' := Nat.le_trans (Nat.add_le_add_left hjk _) h.budget_le'

end Paces

/-- Cursors that are abreast before the end of the file move on together, unless the tokens of the first are cut short.
    -/
theorem Abreast.next (h : c.Abreast r c') (hkind : c.token.kind ≠ .eof) : (∃ e, r.stop = some e ∧ c.next = .error e) ∨
    (∃ cause span, cause ≠ .outOfSteps ∧ c.next = .error (.malformed cause span) ∧
      c'.next = .error (.malformed cause (span.moved r.move))) ∨
    ∃ d d', c.next = .ok d ∧ c'.next = .ok d' ∧ Paces r 1 c c' d d' := by
  obtain ⟨htoken, hlast, hahead⟩ := h
  replace hahead := hahead hkind
  obtain ⟨token, last, ahead, left, left_eq⟩ := c
  obtain ⟨token', last', ahead', left', left_eq'⟩ := c'
  subst htoken
  cases hahead with
  | stop hstop => exact .inl ⟨_, hstop, rfl⟩
  | malformed hcause => exact .inr (.inl ⟨_, _, hcause, rfl, rfl⟩)
  | eof ht =>
    refine .inr (.inr ⟨_, _, rfl, rfl, ⟨rfl, rfl, fun hne => absurd ht hne⟩, ?_, ?_⟩)
    · simp [budget, left_eq]
    · simp [budget, left_eq']
  | token hrest =>
    refine .inr (.inr ⟨_, _, rfl, rfl, ⟨rfl, rfl, fun _ => hrest⟩, ?_, ?_⟩)
    · simp [budget, left_eq]
    · simp [budget, left_eq']

end Cursor

open Cursor (Abreast Paces)

namespace Parser

variable {α β γ δ : Type} {c c' d d' : Cursor} {j k m m' n n' : Nat} {kind : TokenKind}

/-- Whether two parsers fare alike from two cursors: the first is stopped, or both fail in the same way, which is not
    for lack of steps, or both give the same up to places, which `f` moves, and the cursors have the property `Q`
    afterwards. -/
inductive Along (r : Reading) (f : α → β) (x : Parser α) (x' : Parser β) (c c' : Cursor)
    (Q : α → Cursor → Cursor → Prop) : Prop
  | stopped {e : SourceError} (stops : r.stop = some e) (h : x c = .error e)
  | failed {cause : SyntaxCause} {span : Span} (hcause : cause ≠ .outOfSteps) (h : x c = .error (.malformed cause span))
      (h' : x' c' = .error (.malformed cause (span.moved r.move)))
  | given {a : α} {d d' : Cursor} (h : x.Gives c a d) (h' : x'.Gives c' (f a) d') (hq : Q a d d')

namespace Along

variable {f : α → β} {g : γ → δ} {x y : Parser α} {x' y' : Parser β} {a : α} {b : β}
  {Q R : α → Cursor → Cursor → Prop} {S : γ → Cursor → Cursor → Prop}

theorem mono (h : Along r f x x' c c' Q) (hq : ∀ {a d d'}, Q a d d' → R a d d') : Along r f x x' c c' R := by
  cases h with
  | stopped hstop h => exact .stopped hstop h
  | failed hcause h h' => exact .failed hcause h h'
  | given h h' hq' => exact .given h h' (hq hq')

theorem pure (hb : b = f a) (h : Q a d d') : Along r f (pure a) (pure b) d d' Q :=
  .given rfl (hb ▸ rfl) h

theorem of_eq {e e' : Cursor} (h : Along r f y y' e e' Q) (heq : x d = y e) (heq' : x' d' = y' e') :
    Along r f x x' d d' Q := by
  cases h with
  | stopped hstop h => exact .stopped hstop (heq.trans h)
  | failed hcause h h' => exact .failed hcause (heq.trans h) (heq'.trans h')
  | given h h' hq => exact .given (heq.trans h) (heq'.trans h') hq

theorem bind {k : α → Parser γ} {k' : β → Parser δ}
    (h : Along r f x x' d d' fun a e e' => Along r g (k a) (k' (f a)) e e' S) :
    Along r g (x >>= k) (x' >>= k') d d' S := by
  cases h with
  | stopped hstop h => exact .stopped hstop (by rw [bind_apply, h]; rfl)
  | failed hcause h h' => exact .failed hcause (by rw [bind_apply, h]; rfl) (by rw [bind_apply, h']; rfl)
  | given h h' hrest => exact hrest.of_eq (by rw [bind_apply, h]; rfl) (by rw [bind_apply, h']; rfl)

theorem ite {p : Prop} [Decidable p] (h : Along r f x x' d d' Q) (h' : Along r f y y' d d' Q) :
    Along r f (if p then x else y) (if p then x' else y') d d' Q := by
  split
  · exact h
  · exact h'

theorem ite_true (h : Along r f x x' d d' Q) :
    Along r f (if true = true then x else y) (if true = true then x' else y') d d' Q := h

theorem ite_false (h : Along r f y y' d d' Q) :
    Along r f (if false = true then x else y) (if false = true then x' else y') d d' Q := h

theorem current {Q : Token → Cursor → Cursor → Prop} (h : d.Abreast r d') (hq : Q d.token d d') :
    Along r (·.moved r.move) current current d d' Q :=
  .given rfl (Gives.current h.token_eq) hq

theorem budget {k : Nat → Parser γ} {k' : Nat → Parser δ}
    (h : Along r g (k d.budget) (k' d'.budget) d d' S) : Along r g (budget >>= k) (budget >>= k') d d' S :=
  h.of_eq rfl rfl

theorem spanFrom {Q : Span → Cursor → Cursor → Prop} {span span' : Span} (h : d.Abreast r d')
    (hspan : span' = span.moved r.move) (hq : Q (span.through d.last) d d') :
    Along r (·.moved r.move) (spanFrom span) (spanFrom span') d d' Q := by
  refine .given rfl ?_ hq
  rw [Span.moved_through, ← h.last_eq, hspan]
  rfl

/-- The last step of a phrase, which says what its tokens extend over. -/
theorem spanned {k : Span → α} {k' : Span → β} {span : Span} (h : Paces r j c c' d d')
    (hk : k' ((span.through d.last).moved r.move) = f (k (span.through d.last))) (hm : m ≤ j) :
    Along r f (Parser.spanFrom span >>= fun s => Pure.pure (k s))
      (Parser.spanFrom (span.moved r.move) >>= fun s => Pure.pure (k' s))
      d d' fun _ e e' => Paces r m c c' e e' :=
  .bind (.spanFrom h.abreast rfl (.pure hk (h.mono hm)))

theorem has {Q : Bool → Cursor → Cursor → Prop} (h : d.Abreast r d') (htrue : d.token.kind = kind → Q true d d')
    (hfalse : Q false d d') : Along r id (has kind) (has kind) d d' Q := by
  by_cases hkind : d.token.kind = kind
  · exact .given (.has_true hkind) (.has_true (h.token_eq ▸ hkind)) (htrue hkind)
  · exact .given (.has_false hkind) (.has_false (h.token_eq ▸ hkind)) hfalse

theorem reject (h : d.Abreast r d') : Along r f Parser.reject Parser.reject d d' Q := by
  have hkind : d'.token.kind = d.token.kind := h.token_eq ▸ rfl
  have hspan : d'.token.span = d.token.span.moved r.move := h.token_eq ▸ rfl
  by_cases heof : d.token.kind = .eof
  · refine .failed ?_ (by rw [Parser.reject, if_pos heof]) (by rw [Parser.reject, if_pos (hkind.trans heof), hspan])
    simp
  · have htext : d'.token.text = d.token.text := h.token_eq ▸ rfl
    refine .failed ?_ (by rw [Parser.reject, if_neg heof]) (by rw [Parser.reject, if_neg (hkind ▸ heof), hspan, htext])
    simp

theorem fail {cause : SyntaxCause} (hcause : cause ≠ .outOfSteps) (span : Span) :
    Along r f (fail cause span) (fail cause (span.moved r.move)) d d' Q :=
  .failed hcause rfl rfl

theorem advance {Q : Unit → Cursor → Cursor → Prop} (h : Paces r j c c' d d') (hkind : d.token.kind ≠ .eof)
    (hq : ∀ {e e'}, Paces r (j + 1) c c' e e' → Q () e e') : Along r id Parser.advance Parser.advance d d' Q := by
  rcases h.abreast.next hkind with ⟨e, hstop, hfail⟩ | ⟨cause, span, hcause, hfail, hfail'⟩ | ⟨e, e',
    hnext, hnext', hpaces⟩
  · exact .stopped hstop (by rw [Parser.advance, hfail]; rfl)
  · exact .failed hcause (by rw [Parser.advance, hfail]; rfl) (by rw [Parser.advance, hfail']; rfl)
  · exact .given (.advance (.one hnext)) (.advance (.one hnext')) (hq (h.trans hpaces))

theorem want {Q : Token → Cursor → Cursor → Prop} (h : Paces r j c c' d d') (hkind : (kind == .eof) = false)
    (hq : ∀ {t e e'}, Paces r (j + 1) c c' e e' → Q t e e') : Along r (·.moved r.move) (want kind)
    (want kind) d d' Q := by
  refine .bind (.current h.abreast ?_)
  rw [Token.kind_moved]
  split
  · next hwanted => exact .bind (.advance h (hwanted ▸ beq_eq_false_iff_ne.1 hkind) fun h1 => .pure rfl (hq h1))
  · exact .reject h.abreast

theorem accept {Q : Bool → Cursor → Cursor → Prop} (h : Paces r j c c' d d') (hkind : (kind == .eof) = false)
    (htrue : ∀ {e e'}, Paces r (j + 1) c c' e e' → Q true e e') (hfalse : Q false d d') :
    Along r id (accept kind) (accept kind) d d' Q :=
  .bind (.has h.abreast (fun hwanted => .ite_true
    (.bind (.advance h (hwanted ▸ beq_eq_false_iff_ne.1 hkind) fun h1 => .pure rfl (htrue h1))))
    (.ite_false (.pure rfl hfalse)))

end Along

/-- Whether two parsers fare alike from all cursors with at most `n` and `n'` tokens ahead, and take at least `k`
    tokens. -/
structure Alike (r : Reading) (n n' k : Nat) (f : α → β) (x : Parser α) (x' : Parser β) : Prop where
  along : ∀ {c c'}, c.Abreast r c' → c.budget ≤ n → c'.budget ≤ n' → Along r f x x' c c' fun _ d d' =>
    Paces r k c c' d d'

namespace Alike

variable {f : α → β} {x : Parser α} {x' : Parser β} {Q : α → Cursor → Cursor → Prop} {i i' : Nat}

theorem mono (hx : Alike r n n' k f x x') (hm : m ≤ n) (hm' : m' ≤ n') : Alike r m m' k f x x' where
  along h hc hc' := hx.along h (Nat.le_trans hc hm) (Nat.le_trans hc' hm')

/-- Every cursor is on a token, so nothing is asked of parsers within the bound 0. -/
theorem zero (x : Parser α) (x' : Parser β) : Alike r 0 n' k f x x' where
  along {c _} _ hc _ := absurd c.budget_pos (Nat.not_lt.2 hc)

theorem zero' (x : Parser α) (x' : Parser β) : Alike r n 0 k f x x' where
  along {_ c'} _ _ hc' := absurd c'.budget_pos (Nat.not_lt.2 hc')

/-- Parsers that fare alike within some bounds do so within what is left of them after taking tokens. -/
theorem lower (hx : Alike r n n' k f x x') (h : Paces r j c c' d d') (hn : c.budget ≤ n + j)
    (hn' : c'.budget ≤ n' + j) : Alike r d.budget d'.budget k f x x' := by
  have hle := h.budget_le
  have hle' := h.budget_le'
  exact hx.mono (by omega) (by omega)

/-- Going on within the bounds of the cursors themselves. -/
theorem atBudget (hx : Alike r d.budget d'.budget k f x x') (h : Paces r j c c' d d')
    (hq : ∀ {a e e'}, Paces r (j + k) c c' e e' → Q a e e') : Along r f x x' d d' Q :=
  (hx.along h.abreast (Nat.le_refl _) (Nat.le_refl _)).mono fun h' => hq (h.trans h')

/-- Going on after tokens that were taken before. -/
theorem after (hx : Alike r n n' k f x x') (h : Paces r j c c' d d') (hn : c.budget ≤ n + j) (hn' : c'.budget ≤ n' + j)
    (hq : ∀ {a e e'}, Paces r (j + k) c c' e e' → Q a e e') : Along r f x x' d d' Q :=
  (hx.lower h hn hn').atBudget h hq

theorem separated (hx : Alike r i i' k f x x') : Alike r i i' k (List.map f) (separated x i) (separated x' i') := by
  induction i generalizing i' with
  | zero => exact zero _ _
  | succ i ih =>
    cases i' with
    | zero => exact zero' _ _
    | succ i' =>
      have hrest := ih (hx.mono (le_succ i) (le_succ i'))
      refine ⟨fun hc hn hn' => .bind (hx.after hc.paces hn hn' fun h1 => .bind (.accept h1 rfl (fun h2 => .ite_true ?_)
        (.ite_false (.pure rfl ?_))))⟩
      · exact .bind (hrest.after h2 (by omega) (by omega) fun h3 => .pure rfl (h3.mono (by omega)))
      · exact h1.mono (by omega)

theorem listed (hx : Alike r n n' k f x x') (close : TokenKind) :
    Alike r n n' 0 (List.map f) (listed x close) (listed x' close) where
  along hc hn hn' := .bind (.has hc (fun _ => .ite_true (.pure rfl hc.paces)) (.ite_false (.budget
    ((hx.lower hc.paces hn hn').separated.atBudget hc.paces fun h1 => h1.mono (zero_le _)))))

theorem repeats (hx : Alike r i i' 1 f x x') (stop : TokenKind) (hc : c.Abreast r c') (hn : c.budget ≤ i)
    (hn' : c'.budget ≤ i') : Along r (List.map f) (manyUntil stop x i) (manyUntil stop x' i') c c' fun _ d d' =>
      Paces r 0 c c' d d' ∧ d.token.kind = stop := by
  induction i generalizing i' c c' with
  | zero => exact absurd c.budget_pos (Nat.not_lt.2 hn)
  | succ i ih =>
    cases i' with
    | zero => exact absurd c'.budget_pos (Nat.not_lt.2 hn')
    | succ i' =>
      refine .bind (.has hc (fun hstop => .ite_true (.pure rfl ⟨hc.paces, hstop⟩)) (.ite_false ?_))
      refine .bind (hx.after hc.paces hn hn' fun h1 => .bind (f := List.map f) ?_)
      have hle := h1.budget_le
      have hle' := h1.budget_le'
      refine (ih (hx.mono (le_succ i) (le_succ i')) h1.abreast (by omega) (by omega)).mono fun h2 => .pure rfl ?_
      exact ⟨(h1.trans h2.1).mono (zero_le _), h2.2⟩

/-- A repetition with as many steps as there are tokens ends at its stop. -/
theorem manyUntil {stop : TokenKind} {Q : List α → Cursor → Cursor → Prop} (hx : Alike r d.budget d'.budget 1 f x x')
    (h : Paces r j c c' d d') (hq : ∀ {as e e'}, Paces r j c c' e e' → e.token.kind = stop → Q as e e') :
    Along r (List.map f) (manyUntil stop x d.budget) (manyUntil stop x' d'.budget) d d' Q :=
  (hx.repeats stop h.abreast (Nat.le_refl _) (Nat.le_refl _)).mono fun h' => hq (h.trans h'.1) h'.2

theorem typeLabel (n n' : Nat) : Alike r n n' 1 (·.moved r.move) (typeLabel n) (typeLabel n') := by
  induction n generalizing n' with
  | zero => exact zero _ _
  | succ _ ih =>
    cases n' with
    | zero => exact zero' _ _
    | succ n' =>
      have hmoved (span : Span) (name : Token) (args : List TypeLabel) :
          TypeLabel.mk (span.moved r.move) (name.moved r.move).text (args.map (·.moved r.move)) =
            (TypeLabel.mk span name.text args).moved r.move := by
        rw [TypeLabel.moved, TypeLabel.movedList_eq_map]
        rfl
      refine ⟨fun hc hn hn' => .bind (.want hc.paces rfl fun h1 =>
        .bind (.accept h1 rfl (fun h2 => .ite_true (.budget ?_))
        (.ite_false (.bind (.spanFrom h1.abreast rfl (.pure (hmoved _ _ []) h1))))))⟩
      refine .bind (((ih n').lower h2 (by omega) (by omega)).separated.atBudget h2 fun h3 =>
        .bind (.want h3 rfl fun h4 => ?_))
      exact .spanned h4 (hmoved _ _ _) (by omega)

theorem locality (n n' : Nat) : Alike r n n' 0 id locality locality := by
  refine ⟨fun {c _} hc _ _ => .bind (.current hc ?_)⟩
  simp only [Token.kind_moved]
  cases hkind : c.token.kind with
  | kwLocal | kwGlobal => exact .bind (.advance hc.paces (by simp [hkind]) fun h1 => .pure rfl (h1.mono (zero_le _)))
  | _ => exact .pure rfl hc.paces

theorem uniqueness (n n' : Nat) : Alike r n n' 0 id uniqueness uniqueness := by
  refine ⟨fun {c _} hc _ _ => .bind (.current hc ?_)⟩
  simp only [Token.kind_moved]
  cases hkind : c.token.kind with
  | kwUnique | kwShared => exact .bind (.advance hc.paces (by simp [hkind]) fun h1 => .pure rfl (h1.mono (zero_le _)))
  | _ => exact .pure rfl hc.paces

theorem modes (n n' : Nat) : Alike r n n' 0 id modes modes where
  along hc hn hn' := .bind ((locality n n').after hc.paces hn hn' fun h1 =>
    .bind ((uniqueness n n').after h1 hn hn' fun h2 => .pure rfl h2))

theorem literal (n n' : Nat) : Alike r n n' 1 (Prod.map (·.moved r.move) id) literal literal := by
  refine ⟨fun {c _} hc _ _ => .bind (.current hc ?_)⟩
  simp only [Token.kind_moved, Token.text_moved, Token.span_moved]
  cases hkind : c.token.kind with
  | intLit =>
    refine .bind (.advance hc.paces (by simp [hkind]) fun h1 => ?_)
    cases Literal.ofDigits? c.token.text.toList with
    | none => exact .fail (by decide) _
    | some => exact .pure rfl h1
  | floatLit =>
    refine .bind (.advance hc.paces (by simp [hkind]) fun h1 => ?_)
    cases Literal.ofDecimal? c.token.text.toList with
    | none => exact .fail (by decide) _
    | some => exact .pure rfl h1
  | kwTrue | kwFalse => exact .bind (.advance hc.paces (by simp [hkind]) fun h1 => .pure rfl h1)
  | _ => exact .reject hc

theorem variantSign (n n' : Nat) : Alike r n n' 0 id variantSign variantSign := by
  refine ⟨fun {c _} hc _ _ => .bind (.current hc ?_)⟩
  simp only [Token.kind_moved]
  cases hkind : c.token.kind with
  | dot | dcolon => exact .bind (.advance hc.paces (by simp [hkind]) fun h1 => .pure rfl (h1.mono (zero_le _)))
  | _ => exact .pure rfl hc.paces

theorem pattern (n n' : Nat) : Alike r n n' 1 (·.moved r.move) (pattern n) (pattern n') := by
  induction n generalizing n' with
  | zero => exact zero _ _
  | succ n ih =>
    cases n' with
    | zero => exact zero' _ _
    | succ n' =>
      refine ⟨fun {c _} hc hn hn' => .bind (.current hc ?_)⟩
      simp only [Token.kind_moved, Token.text_moved, Token.span_moved]
      cases hkind : c.token.kind with
      | intLit | floatLit | kwTrue | kwFalse =>
        exact .bind ((literal _ _).after hc.paces hn hn' fun h1 => .pure (by rw [Pattern.moved]; rfl) h1)
      | minus =>
        refine .bind (.advance hc.paces (by simp [hkind]) fun {d _} h1 => .bind (.current h1.abreast ?_))
        refine .ite (.bind ((literal n n').after h1 hn hn' fun h2 => .bind (.spanFrom h2.abreast rfl ?_)))
          (.reject h1.abreast)
        exact .pure (by rw [Pattern.moved]; rfl) (h2.mono (by omega))
      | ident =>
        refine .bind (.advance hc.paces (by simp [hkind]) fun h1 =>
          .bind ((variantSign n n').after h1 hn hn' fun {sign _ _} h2 => ?_))
        cases sign with
        | true =>
          refine .ite_true (.bind (.want h2 rfl fun h3 => .bind (.accept h3 rfl (fun h4 => ?_) ?_)))
          · refine .ite_true (.bind (((ih n').listed .rparen).after h4 (by omega) (by omega) fun h5 =>
              .bind (.want h5 rfl fun h6 => ?_)))
            simp only [pure_bind]
            exact .spanned h6 (by rw [Pattern.moved_variant]; rfl) (by omega)
          · simp only [pure_bind]
            exact .ite_false (.spanned h3 (by rw [Pattern.moved_variant]; rfl) (by omega))
        | false => exact .ite_false (.ite (.pure (by rw [Pattern.moved]) h2) (.pure (by rw [Pattern.moved]) h2))
      | _ => exact .reject hc

end Alike

/-- Whether two nestings of phrases fare alike from cursors with at most `n` and `n'` tokens ahead. -/
structure Phrases.Alike (r : Reading) (n n' : Nat) (inner inner' : Phrases) : Prop where
  expr : Parser.Alike r n n' 0 (·.moved r.move) inner.expr inner'.expr
  unary : Parser.Alike r n n' 0 (·.moved r.move) inner.unary inner'.unary
  chain : Parser.Alike r n n' 1 (·.moved r.move) inner.chain inner'.chain
  block : Parser.Alike r n n' 1 (·.moved r.move) inner.block inner'.block

theorem moved_negated (sign span : Span) (e : Expr Unit) :
    (negated sign span e).moved move = negated (sign.moved move) (span.moved move) (e.moved move) := by
  cases e with
  | literal _ value =>
    rw [negated, Expr.moved, negated]
    cases value.neg? <;> simp [Expr.moved]
  | ident | variant | binary | assign | call | paren | select => simp [negated, Expr.moved]

namespace Alike

theorem climb {x x' : Parser (Expr Unit)} {i i' : Nat} (hx : Alike r i i' 0 (·.moved r.move) x x') (limit : Nat)
    (lhs : Expr Unit) : Alike r i i' 0 (·.moved r.move) (climb x i limit lhs)
    (climb x' i' limit (lhs.moved r.move)) := by
  induction i generalizing i' limit lhs with
  | zero => exact zero _ _
  | succ i ih =>
    cases i' with
    | zero => exact zero' _ _
    | succ i' =>
      have hrest := ih (hx.mono (le_succ i) (le_succ i'))
      rw [climb_succ, climb_succ]
      refine ⟨fun {c _} hc hn hn' => .bind (f := id) (.bind (.current hc (.pure rfl ?_)))⟩
      cases hop : (BinaryOp.ofToken? c.token.kind).filter (·.level < limit) with
      | none => exact .pure rfl hc.paces
      | some op =>
        have hkind : c.token.kind ≠ .eof := by
          intro heof
          rw [heof] at hop
          cases hop
        refine .bind (.advance hc.paces hkind fun h1 =>
          .bind (hx.after h1 (by omega) (by omega) fun {first _ _} h2 => ?_))
        -- The operator was taken, so one step less is enough for its operand and for what follows.
        refine .bind ((hrest op.level first).after h2 hn hn' fun {rhs _ _} h3 => ?_)
        have hnext := hrest limit (.binary (lhs.span.through rhs.span) op lhs rhs)
        rw [Expr.moved, Span.moved_through, ← lhs.span_moved, ← rhs.span_moved] at hnext
        exact hnext.after h3 hn hn' fun h4 => h4.mono (zero_le _)

theorem operation {x x' : Parser (Expr Unit)} (hx : Alike r n n' 0 (·.moved r.move) x x') :
    Alike r n n' 0 (·.moved r.move) (operation x) (operation x') where
  along hc hn hn' := .bind (hx.after hc.paces hn hn' fun {lhs _ _} h1 => .budget
    (((hx.lower h1 hn hn').climb _ lhs).atBudget h1 fun h2 => h2))

section Layer

variable {inner inner' : Phrases} (h : inner.Alike r n n' inner')
include h

theorem arm (blocks : Bool) : Alike r n n' 1 (·.moved r.move) (arm inner blocks) (arm inner' blocks) := by
  refine ⟨fun hc hn hn' => .budget (.bind ((pattern _ _).atBudget hc.paces fun {pattern _ _} h1 =>
    .bind (.want h1 rfl fun h2 =>
    .bind (.has h2.abreast (fun _ => .ite_true ?_) (.ite_false ?_)))))⟩
  · cases blocks with
    | false => exact .ite_false (.bind (.current h2.abreast (.fail (by decide) _)))
    | true =>
      refine .ite_true (.bind (h.block.after h2 (by omega) (by omega) fun h3 =>
        .bind (.spanFrom h3.abreast (pattern.span_moved _) ?_)))
      exact .bind (.accept h3 rfl (fun h4 => .pure (by rw [Arm.moved]) (h4.mono (by omega)))
        (.pure (by rw [Arm.moved]) (h3.mono (by omega))))
  · refine .bind (h.expr.after h2 (by omega) (by omega) fun h3 =>
      .bind (.spanFrom h3.abreast (pattern.span_moved _) ?_))
    refine .bind (.accept h3 rfl (fun h4 => .ite_true (.pure (by rw [Arm.moved]) (h4.mono (by omega))))
      (.ite_false (.bind (.has h3.abreast (fun _ => ?_) ?_))))
    · exact .ite_true (.pure (by rw [Arm.moved]) (h3.mono (by omega)))
    · exact .ite_false (.reject h3.abreast)

theorem selection (blocks : Bool) :
    Alike r (n + 1) (n' + 1) 1 (·.moved r.move) (Parser.selection inner blocks) (Parser.selection inner' blocks) := by
  refine ⟨fun hc hn hn' => .bind (.want hc.paces rfl fun h1 =>
    .bind (h.expr.after h1 hn hn' fun h2 => .bind (.want h2 rfl fun h3 =>
    .budget ?_)))⟩
  refine .bind (((arm h blocks).lower h3 (by omega) (by omega)).manyUntil h3 fun h4 hstop => ?_)
  exact .bind (.advance h4 (by simp [hstop]) fun h5 => .bind (.spanFrom h5.abreast rfl
    (.pure (by rw [Match.moved, Arm.movedList_eq_map]) (h5.mono (by omega)))))

theorem atom : Alike r (n + 1) (n' + 1) 1 (·.moved r.move) (atom inner) (atom inner') := by
  refine ⟨fun {c _} hc hn hn' => .bind (.current hc ?_)⟩
  simp only [Token.kind_moved, Token.text_moved, Token.span_moved]
  cases hkind : c.token.kind with
  | intLit | floatLit | kwTrue | kwFalse =>
    exact .bind ((literal _ _).after hc.paces hn hn' fun h1 => .pure (by rw [Expr.moved]; rfl) h1)
  | ident =>
    refine .bind (.advance hc.paces (by simp [hkind]) fun h1 =>
      .bind ((variantSign n n').after h1 hn hn' fun {sign _ _} h2 => ?_))
    cases sign with
    | true => exact .ite_true (.bind (.want h2 rfl fun h3 => .pure (by rw [Expr.moved]; rfl) (h3.mono (by omega))))
    | false => exact .ite_false (.pure (by rw [Expr.moved]) h2)
  | lparen =>
    refine .bind (.advance hc.paces (by simp [hkind]) fun h1 =>
      .bind (h.expr.after h1 hn hn' fun h2 => .bind (.want h2 rfl fun h3 => ?_)))
    exact .spanned h3 (by rw [Expr.moved]) (by omega)
  | kwMatch => exact .bind ((selection h false).after hc.paces hn hn' fun h1 => .pure (by rw [Expr.moved]) h1)
  | _ => exact .reject hc

theorem calls {i i' : Nat} (hi : i ≤ n + 1) (hi' : i' ≤ n' + 1) (callee : Expr Unit) :
    Alike r i i' 0 (·.moved r.move) (Parser.calls inner i callee) (Parser.calls inner' i' (callee.moved r.move)) := by
  induction i generalizing i' callee with
  | zero => exact zero _ _
  | succ _ ih =>
    cases i' with
    | zero => exact zero' _ _
    | succ i' =>
      refine ⟨fun hc hn hn' => .bind (.accept hc.paces rfl (fun h1 => .ite_true ?_) (.ite_false (.pure rfl hc.paces)))⟩
      refine .bind ((h.expr.listed .rparen).after h1 (by omega) (by omega) fun {args _ _} h2 =>
        .bind (.want h2 rfl fun {_ e _} h3 =>
        .bind (.spanFrom h3.abreast (callee.span_moved _) ?_)))
      have hcall := @ih i' (by omega) (by omega) (.call (callee.span.through e.last) callee args)
      rw [Expr.moved, Expr.movedList_eq_map] at hcall
      exact hcall.after h3 (by omega) (by omega) fun h4 => h4.mono (zero_le _)

theorem unary : Alike r (n + 1) (n' + 1) 0 (·.moved r.move) (Parser.unary inner) (Parser.unary inner') := by
  refine ⟨fun hc hn hn' => .bind (.current hc (.bind (.accept hc.paces rfl (fun h1 => .ite_true ?_) (.ite_false ?_))))⟩
  · refine .bind (h.unary.after h1 hn hn' fun h2 =>
      .bind (.spanFrom h2.abreast rfl (.pure (moved_negated _ _ _).symm ?_)))
    exact h2.mono (zero_le _)
  · refine .bind ((atom h).after hc.paces hn hn' fun h1 => .budget ?_)
    have hle := h1.budget_le
    have hle' := h1.budget_le'
    exact (calls h (by omega) (by omega) _).atBudget h1 fun h2 => h2.mono (zero_le _)

theorem expr : Alike r (n + 1) (n' + 1) 0 (·.moved r.move) (Parser.expr inner) (Parser.expr inner') := by
  refine ⟨fun hc hn hn' => .bind ((operation (unary h)).after hc.paces hn hn' fun h1 => ?_)⟩
  refine .bind (.accept h1 rfl (fun h2 => .ite_true (.bind (h.expr.after h2 hn hn' fun h3 => .pure ?_ ?_)))
    (.ite_false (.pure rfl h1)))
  · simp [Expr.moved]
  · exact h3.mono (zero_le _)

theorem chain : Alike r (n + 1) (n' + 1) 1 (·.moved r.move) (Parser.chain inner) (Parser.chain inner') := by
  refine ⟨fun hc hn hn' => .bind (.want hc.paces rfl fun h1 => .bind (h.expr.after h1 hn hn' fun h2 =>
    .bind (h.block.after h2 (by omega) (by omega) fun h3 => .bind (.accept h3 rfl (fun h4 => ?_) ?_))))⟩
  · refine .ite_true (.bind (.has h4.abreast (fun _ => .ite_true ?_) (.ite_false ?_)))
    · refine .bind (h.chain.after h4 (by omega) (by omega) fun h5 => .bind (.spanFrom h5.abreast rfl ?_))
      exact .pure (by rw [IfChain.moved]) (h5.mono (by omega))
    · refine .bind (h.block.after h4 (by omega) (by omega) fun h5 => .bind (.spanFrom h5.abreast rfl ?_))
      exact .pure (by rw [IfChain.moved]) (h5.mono (by omega))
  · exact .ite_false (.spanned h3 (by rw [IfChain.moved]) (by omega))

theorem declaration : Alike r n n' 1 (·.moved r.move) (Parser.declaration inner) (Parser.declaration inner') := by
  refine ⟨fun hc hn hn' => .bind (.want hc.paces rfl fun h1 =>
    .bind ((modes n n').after h1 (by omega) (by omega) fun h2 =>
    .bind (.want h2 rfl fun h3 => .bind (.want h3 rfl fun h4 =>
      .budget (.bind ((typeLabel _ _).atBudget h4 fun h5 => ?_))))))⟩
  simp only [pure_bind]
  refine .bind (.accept h5 rfl (fun h6 => .ite_true (.bind (h.expr.after h6 (by omega) (by omega) fun h7 => ?_)))
    (.ite_false ?_))
  · exact .bind (.want h7 rfl fun h8 => .spanned h8 (by rw [Stmt.moved]; rfl) (by omega))
  · exact .bind (.want h5 rfl fun h6 => .spanned h6 (by rw [Stmt.moved]; rfl) (by omega))

theorem loop : Alike r n n' 1 (·.moved r.move) (Parser.loop inner) (Parser.loop inner') := by
  refine ⟨fun hc hn hn' => .bind (.want hc.paces rfl fun h1 => .bind (h.expr.after h1 (by omega) (by omega) fun h2 =>
    .bind (h.block.after h2 (by omega) (by omega) fun h3 =>
      .bind (.spanFrom h3.abreast rfl (.pure (by rw [Stmt.moved]) ?_)))))⟩
  exact h3.mono (by omega)

theorem giveBack : Alike r n n' 1 (·.moved r.move) (Parser.giveBack inner) (Parser.giveBack inner') := by
  refine ⟨fun hc hn hn' => .bind (.want hc.paces rfl fun h1 => ?_)⟩
  simp only [pure_bind]
  refine .bind (.has h1.abreast (fun _ => .ite_true ?_)
    (.ite_false (.bind (h.expr.after h1 (by omega) (by omega) fun h2 => ?_))))
  · exact .bind (.want h1 rfl fun h2 => .spanned h2 (by rw [Stmt.moved]) (by omega))
  · exact .bind (.want h2 rfl fun h3 => .spanned h3 (by rw [Stmt.moved]) (by omega))

theorem stmt : Alike r n n' 1 (·.moved r.move) (stmt inner) (stmt inner') := by
  refine ⟨fun {c _} hc hn hn' => .bind (.current hc ?_)⟩
  simp only [Token.kind_moved]
  cases c.token.kind with
  | kwLet => exact (declaration h).along hc hn hn'
  | kwIf => exact .bind (h.chain.after hc.paces hn hn' fun h1 => .pure (by rw [Stmt.moved]) h1)
  | kwWhile => exact (loop h).along hc hn hn'
  | kwMatch =>
    refine .bind ((selection h true).after hc.paces (by omega) (by omega) fun h1 => ?_)
    exact .bind (.accept h1 rfl (fun h2 => .pure (by rw [Stmt.moved]) (h2.mono (by omega)))
      (.pure (by rw [Stmt.moved]) h1))
  | kwReturn => exact (giveBack h).along hc hn hn'
  | lbrace => exact .bind (h.block.after hc.paces hn hn' fun h1 => .pure (by rw [Stmt.moved]) h1)
  | _ =>
    refine .bind (h.expr.after hc.paces hn hn' fun {e _ _} h1 => .bind (.want h1 rfl fun h2 => ?_))
    exact .bind (.spanFrom h2.abreast (e.span_moved _) (.pure (by rw [Stmt.moved]) h2))

theorem block : Alike r (n + 1) (n' + 1) 1 (·.moved r.move) (Parser.block inner) (Parser.block inner') := by
  refine ⟨fun hc hn hn' => .bind (.want hc.paces rfl fun h1 => .budget ?_)⟩
  refine .bind (((stmt h).lower h1 hn hn').manyUntil h1 fun h2 hstop =>
    .bind (.advance h2 (by simp [hstop]) fun h3 => ?_))
  exact .spanned h3 (by rw [Block.moved, Stmt.movedList_eq_map]) (by omega)

end Layer

theorem variants (i i' : Nat) : Alike r i i' 0 id (variants i) (variants i') := by
  induction i generalizing i' with
  | zero => exact zero _ _
  | succ _ ih =>
    cases i' with
    | zero => exact zero' _ _
    | succ i' =>
      refine ⟨fun hc hn hn' => .bind (.want hc.paces rfl fun h1 => .bind (.accept h1 rfl (fun h2 => .ite_true ?_)
        (.ite_false (.pure rfl (h1.mono (zero_le _))))))⟩
      refine .bind (.has h2.abreast (fun _ => .ite_true ?_) (.ite_false (.pure rfl (h2.mono (zero_le _)))))
      exact .bind ((ih i').after h2 (by omega) (by omega) fun h3 => .pure rfl (h3.mono (zero_le _)))

theorem enumDef (n n' : Nat) : Alike r n n' 1 (·.moved r.move) enumDef enumDef := by
  refine ⟨fun hc _ _ => .bind (.want hc.paces rfl fun h1 =>
    .bind (.want h1 rfl fun h2 => .bind (.want h2 rfl fun h3 => .budget ?_)))⟩
  refine .bind ((variants _ _).atBudget h3 fun h4 => .bind (.want h4 rfl fun h5 => ?_))
  exact .spanned h5 rfl (by omega)

theorem param (n n' : Nat) : Alike r n n' 1 (·.moved r.move) param param := by
  refine ⟨fun hc hn hn' => .bind (.current hc (.bind ((modes n n').after hc.paces hn hn' fun h1 =>
    .bind (.want h1 rfl fun h2 => .bind (.want h2 rfl fun h3 => .budget ?_)))))⟩
  refine .bind ((typeLabel _ _).atBudget h3 fun h4 => ?_)
  exact .spanned h4 rfl (by omega)

theorem funcDef {inner inner' : Phrases} (h : inner.Alike r n n' inner') :
    Alike r n n' 1 (·.moved r.move) (funcDef inner) (funcDef inner') := by
  refine ⟨fun hc hn hn' => .bind (.want hc.paces rfl fun h1 =>
    .bind (.want h1 rfl fun h2 => .bind (.want h2 rfl fun h3 =>
    .bind (((param n n').listed .rparen).after h3 (by omega) (by omega) fun h4 => .bind (.want h4 rfl fun h5 => ?_)))))⟩
  simp only [pure_bind]
  refine .bind (.accept h5 rfl (fun h6 => .ite_true (.budget ?_)) (.ite_false ?_))
  · refine .bind ((typeLabel _ _).atBudget h6 fun h7 => ?_)
    refine .bind (h.block.after h7 (by omega) (by omega) fun h8 => .bind (.spanFrom h8.abreast rfl (.pure rfl ?_)))
    exact h8.mono (by omega)
  · refine .bind (h.block.after h5 (by omega) (by omega) fun h6 => .bind (.spanFrom h6.abreast rfl (.pure rfl ?_)))
    exact h6.mono (by omega)

theorem definition {inner inner' : Phrases} (h : inner.Alike r n n' inner') :
    Alike r n n' 1 (·.moved r.move) (Parser.definition inner) (Parser.definition inner') := by
  refine ⟨fun {c _} hc hn hn' => .bind (.current hc ?_)⟩
  simp only [Token.kind_moved]
  cases c.token.kind with
  | kwEnum => exact .bind ((enumDef n n').after hc.paces hn hn' fun h1 => .pure rfl h1)
  | kwFn => exact .bind ((funcDef h).after hc.paces hn hn' fun h1 => .pure rfl h1)
  | _ => exact .reject hc

end Alike

theorem phrases_alike (n n' : Nat) : (phrases n).Alike r n n' (phrases n') := by
  induction n generalizing n' with
  | zero => exact ⟨.zero _ _, .zero _ _, .zero _ _, .zero _ _⟩
  | succ _ ih =>
    cases n' with
    | zero => exact ⟨.zero' _ _, .zero' _ _, .zero' _ _, .zero' _ _⟩
    | succ n' => exact ⟨.expr (ih n'), .unary (ih n'), .chain (ih n'), .block (ih n')⟩

theorem program_along (hc : c.Abreast r c') :
    Along r (·.moved r.move) Parser.program Parser.program c c' fun _ d d' => Paces r 0 c c' d d' := by
  have hdefinition : Alike r c.budget c'.budget 1 (·.moved r.move) (definition (phrases c.budget))
      (definition (phrases c'.budget)) :=
    .definition (phrases_alike _ _)
  exact .budget (.bind (hdefinition.manyUntil hc.paces fun h _ => .pure rfl h))

end Parser

/-- Tokens denote what others at the moved places denote, or fail alike and not for lack of steps, unless they are cut
    short. -/
theorem Program.ofTokens_pairs (horigin : r.move .origin = .origin)
    (h : r.Pairs tokens tokens') : (∃ e, r.stop = some e ∧ ofTokens tokens = .error e) ∨
    (∃ cause span, cause ≠ .outOfSteps ∧ ofTokens tokens = .error (.malformed cause span) ∧
      ofTokens tokens' = .error (.malformed cause (span.moved r.move))) ∨
    ∃ p, ofTokens tokens = .ok p ∧ ofTokens tokens' = .ok (p.moved r.move) := by
  have hspan : (⟨.origin, .origin⟩ : Span) = Span.moved r.move ⟨.origin, .origin⟩ := by rw [Span.moved, horigin]
  have hrun {t : Token} {rest rest' : List (Except SourceError Token)} (hrest : t.kind ≠ .eof → r.Pairs rest rest') :
      (∃ e, r.stop = some e ∧ ofTokens (.ok t :: rest) = .error e) ∨
      (∃ cause span, cause ≠ .outOfSteps ∧ ofTokens (.ok t :: rest) = .error (.malformed cause span) ∧
        ofTokens (.ok (t.moved r.move) :: rest') = .error (.malformed cause (span.moved r.move))) ∨
      ∃ p, ofTokens (.ok t :: rest) = .ok p ∧ ofTokens (.ok (t.moved r.move) :: rest') = .ok (p.moved r.move) := by
    have heq (t : Token) (ahead : List (Except SourceError Token)) : ofTokens (.ok t :: ahead) =
        (Parser.program ⟨t, ⟨.origin, .origin⟩, ahead, ahead.length, rfl⟩ >>= fun r => pure r.1) := rfl
    have habreast : Abreast r ⟨t, ⟨.origin, .origin⟩, rest, rest.length, rfl⟩
        ⟨t.moved r.move, ⟨.origin, .origin⟩, rest', rest'.length, rfl⟩ := ⟨rfl, hspan, hrest⟩
    rw [heq, heq]
    cases program_along habreast with
    | stopped hstop h => exact .inl ⟨_, hstop, by rw [h]; rfl⟩
    | failed hcause h h' => exact .inr (.inl ⟨_, _, hcause, by rw [h]; rfl, by rw [h']; rfl⟩)
    | given h h' => exact .inr (.inr ⟨_, by rw [h]; rfl, by rw [h']; rfl⟩)
  cases h with
  | stop hstop => exact .inl ⟨_, hstop, rfl⟩
  | malformed hcause => exact .inr (.inl ⟨_, _, hcause, rfl, rfl⟩)
  | eof ht => exact hrun fun hne => absurd ht hne
  | token hrest => exact hrun fun _ => hrest

/-- Tokens with their places moved denote the program with its places moved, or fail alike at the moved place. -/
theorem Program.ofTokens_moved (horigin : move .origin = .origin) (ts : List Token) {last : Token}
    (hlast : last.kind = .eof) :
    ofTokens ((ts ++ [last]).map fun t => .ok (t.moved move)) =
      movedOutcome move (·.moved move) (ofTokens ((ts ++ [last]).map .ok)) := by
  rcases ofTokens_pairs horigin (Reading.pairs_moved ⟨move, none⟩ ts hlast) with ⟨e, hstop, -⟩ | ⟨cause, span, -,
    h, h'⟩ | ⟨p, h, h'⟩
  · cases hstop
  · rw [h, h']
    rfl
  · rw [h, h']
    rfl

namespace Source

/-- A text that cannot be read to its end is not a program. -/
theorem parse_ne_ok_of_failure (chars : List Char) (message : String) (p : Program Unit) :
    parse ⟨chars, some message⟩ ≠ .ok p := by
  intro h
  obtain ⟨ts, eof, rest, htokens, heof, -⟩ := Program.exists_file_of_ofTokens h
  have hmem : .ok eof ∈ tokens ⟨chars, some message⟩ := by
    rw [htokens]
    exact List.mem_append_right _ List.mem_cons_self
  exact Scanner.kind_ne_eof_of_mem_upTo (Option.some_ne_none message) hmem heof

/-- If reading a text fails then it is not a program: the failure comes out, or an error in what was read, which is an
    error of every text that goes on from there. -/
theorem failed_read_settled (chars : List Char) (message : String) :
    parse ⟨chars, some message⟩ = .error (.unreadable message) ∨
    ∃ cause span, parse ⟨chars, some message⟩ = .error (.malformed cause span) ∧
      ∀ more failure, parse ⟨chars ++ more, failure⟩ = .error (.malformed cause span) := by
  have hcut : ∀ more failure, Cut (.unreadable message) (tokens ⟨chars, some message⟩)
      (tokens ⟨chars ++ more, failure⟩) := by
    intro more failure
    have hlength : chars.length < (chars ++ more).length + 1 := by
      rw [List.length_append]
      omega
    exact Scanner.upTo_cut (lt_succ_self _) hlength more failure
  rcases hparse : parse ⟨chars, some message⟩ with e | p
  · cases e with
    | unreadable =>
      refine .inl ?_
      rcases Program.ofTokens_pairs rfl (hcut [] none).pairs with ⟨e, hstop, hfail⟩ | ⟨cause, span, -,
        hfail, -⟩ | ⟨p, hok, -⟩
      · cases hstop
        exact hparse.symm.trans hfail
      · cases hparse.symm.trans hfail
      · cases hparse.symm.trans hok
    | malformed cause span =>
      refine .inr ⟨cause, span, rfl, fun more failure => ?_⟩
      rcases Program.ofTokens_pairs rfl (hcut more failure).pairs with ⟨e, hstop, hfail⟩ | ⟨cause', span', -, hfail,
        hfail'⟩ | ⟨p, hok, -⟩
      · cases hstop
        cases hparse.symm.trans hfail
      · cases hparse.symm.trans hfail
        exact hfail'
      · cases hparse.symm.trans hok
  · exact absurd hparse (parse_ne_ok_of_failure chars message p)

-- After one equals sign the next character matters, after two of them it does not.
example : parse ⟨"fn ==".toList, some "gone"⟩ = .error (.malformed (.unexpectedToken "==") ⟨⟨0, 3⟩, ⟨0, 5⟩⟩) ∧
    parse ⟨"fn =".toList, some "gone"⟩ = .error (.unreadable "gone") := ⟨rfl, rfl⟩

end Source

end LocLang
