import LocLang.Proofs.Token.Scanning

namespace LocLang

open List

namespace Pos

/-- Before or at the same place: on an earlier line, or on the same line and not farther right. -/
instance : LE Pos where
  le p q := p.line < q.line ∨ p.line = q.line ∧ p.col ≤ q.col

instance (p q : Pos) : Decidable (p ≤ q) :=
  inferInstanceAs (Decidable (p.line < q.line ∨ p.line = q.line ∧ p.col ≤ q.col))

variable {p q r : Pos}

theorem le_iff : p ≤ q ↔ p.line < q.line ∨ p.line = q.line ∧ p.col ≤ q.col :=
  Iff.rfl

theorem le_refl (p : Pos) : p ≤ p :=
  .inr ⟨rfl, Int.le_refl _⟩

theorem le_trans (h : p ≤ q) (h' : q ≤ r) : p ≤ r := by
  rw [le_iff] at h h' ⊢
  omega

theorem le_advance (p : Pos) (c : Char) : p ≤ p.advance c := by
  fun_cases advance p c with
  | case1 => exact .inl (Int.lt_succ _)
  | case2 | case3 => exact .inr ⟨rfl, Int.le_add_of_nonneg_right (by decide)⟩

theorem le_after (p : Pos) (cs : List Char) : p ≤ p.after cs := by
  induction cs generalizing p with
  | nil => exact le_refl p
  | cons c _ ih => exact le_trans (le_advance p c) (ih (p.advance c))

end Pos

/-- Whether tokens stand one after the other: each ends no earlier than it starts, and no later than the next one
    starts. -/
structure Token.InOrder (ts : List Token) : Prop where
  ordered : ∀ t ∈ ts, t.span.start ≤ t.span.stop
  apart : ts.Pairwise fun t u => t.span.stop ≤ u.span.start

namespace Token.InOrder

variable {ts us : List Token} {t : Token}

theorem nil : InOrder [] :=
  ⟨forall_mem_nil _, .nil⟩

theorem cons (ht : t.span.start ≤ t.span.stop) (hafter : ∀ u ∈ ts, t.span.stop ≤ u.span.start)
    (h : InOrder ts) : InOrder (t :: ts) :=
  ⟨forall_mem_cons.2 ⟨ht, h.ordered⟩, .cons hafter h.apart⟩

theorem sublist (h : InOrder ts) (hus : us.Sublist ts) : InOrder us :=
  ⟨fun u hu => h.ordered u (hus.subset hu), h.apart.sublist hus⟩

end Token.InOrder

theorem Lexed.span_eq {failure : Option String} {raw rest : List Char} {span : Span} {t : Token}
    (h : Lexed failure raw rest span (.ok t)) : t.span = span := by
  cases h <;> rfl

/-- The tokens that a scanner reads stand one after the other, from where it is. -/
theorem Scanner.upTo_inOrder {n : Nat} {s : Scanner} {ts : List Token} {rest : List (Except SourceError Token)}
    (h : s.upTo n = ts.map .ok ++ rest) : Token.InOrder ts ∧ ∀ t ∈ ts, s.pos ≤ t.span.start := by
  induction n generalizing s ts with
  | zero =>
    obtain ⟨hts, -⟩ := append_eq_nil_iff.1 h.symm
    obtain rfl := map_eq_nil_iff.1 hts
    exact ⟨.nil, forall_mem_nil _⟩
  | succ n ih =>
    cases ts with
    | nil => exact ⟨.nil, forall_mem_nil _⟩
    | cons t ts =>
      obtain ⟨gap, raw, rest', hreads⟩ := s.exists_reads
      obtain ⟨hfirst, hrest⟩ : s.next.1 = .ok t ∧ (ts = [] ∨ s.next.2.upTo n = ts.map .ok ++ rest) := by
        rw [upTo, map_cons, cons_append] at h
        split at h
        · obtain ⟨hfirst, hnil⟩ := cons.inj h
          exact ⟨hfirst, .inl (map_eq_nil_iff.1 (append_eq_nil_iff.1 hnil.symm).1)⟩
        · obtain ⟨hfirst, hrest⟩ := cons.inj h
          exact ⟨hfirst, .inr hrest⟩
      have hlexed := hreads.lexed
      rw [hfirst] at hlexed
      have hspan := hlexed.span_eq
      have hnext : s.next.2.pos = t.span.stop := by rw [hreads.next_eq, hspan]
      obtain ⟨horder, hafter⟩ : Token.InOrder ts ∧ ∀ u ∈ ts, t.span.stop ≤ u.span.start := by
        rcases hrest with rfl | hrest
        · exact ⟨.nil, forall_mem_nil _⟩
        · rw [← hnext]
          exact ih hrest
      have hstart : s.pos ≤ t.span.start := by
        rw [hspan]
        exact s.pos.le_after gap
      have hstop : t.span.start ≤ t.span.stop := by
        rw [hspan]
        exact (s.pos.after gap).le_after raw
      refine ⟨horder.cons hstop hafter, forall_mem_cons.2 ⟨hstart, fun u hu => ?_⟩⟩
      exact Pos.le_trans hstart (Pos.le_trans hstop (hafter u hu))

end LocLang
