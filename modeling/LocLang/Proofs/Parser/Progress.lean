import LocLang.Proofs.Parser.Abreast

namespace LocLang

open Scanner Program

namespace Scanner

variable {s : Scanner} {n : Nat}

/-- Whether a result is read from characters: a token before the end of the file, or one that is malformed. -/
def isRead : Except SourceError Token → Bool
  | .ok token => token.kind != .eof
  | .error (.malformed _ _) => true
  | .error (.unreadable _) => false

/-- What is read from characters takes at least one of them. -/
theorem exists_taken (h : isRead s.next.1) : ∃ taken, taken ≠ [] ∧ s.ahead = taken ++ s.next.2.ahead := by
  obtain ⟨gap, raw, rest, hreads⟩ := s.exists_reads
  have hraw : raw ≠ [] := by
    have hlexed := hreads.lexed
    generalize s.next.1 = result at h hlexed
    cases hlexed with
    | token hraw => exact hraw
    | malformed hraw => exact hraw
    | eof | unreadable => simp [isRead] at h
  refine ⟨gap ++ raw, by simp [hraw], ?_⟩
  rw [hreads.ahead_eq, hreads.next_eq, List.append_assoc]

theorem length_lt_of_isRead (h : isRead s.next.1) : s.next.2.ahead.length < s.ahead.length := by
  obtain ⟨taken, hne, htaken⟩ := exists_taken h
  have hpos := List.length_pos_iff.2 hne
  rw [htaken, List.length_append]
  omega

theorem failure_next (s : Scanner) : s.next.2.failure = s.failure := by
  obtain ⟨gap, raw, rest, hreads⟩ := s.exists_reads
  rw [hreads.next_eq]

/-- What is not read from characters is the last result, be it the end of the file or the failure to read on. -/
theorem isLast_of_not_isRead (h : isRead s.next.1 = false) :
      (s.failure = none ∧ ∃ t, s.next.1 = .ok t ∧ t.kind = .eof) ∨ ∃ message, s.failure = some message ∧
      s.next.1 = .error (.unreadable message) := by
  obtain ⟨gap, raw, rest, hreads⟩ := s.exists_reads
  have hlexed := hreads.lexed
  generalize s.next.1 = result at h hlexed
  cases hlexed with
  | token _ hkind => simp [isRead, hkind] at h
  | malformed => simp [isRead] at h
  | eof _ _ hfailure => exact .inl ⟨hfailure, _, rfl, rfl⟩
  | unreadable _ hfailure => exact .inr ⟨_, hfailure, rfl⟩

/-- A text that can be read to its end has come to it after one step more than it has characters. -/
theorem exists_eof (hn : s.ahead.length < n) (hfailure : s.failure = none) :
    ∃ k t, k ≤ s.ahead.length ∧ (s.steps n)[k]? = some (.ok t) ∧ t.kind = .eof := by
  induction n generalizing s with
  | zero => omega
  | succ _ ih =>
    cases hread : isRead s.next.1 with
    | false =>
      rcases isLast_of_not_isRead hread with ⟨-, t, ht, heof⟩ | ⟨_, hmessage, -⟩
      · exact ⟨0, t, Nat.zero_le _, congrArg some ht, heof⟩
      · cases hfailure.symm.trans hmessage
    | true =>
      have hlt := length_lt_of_isRead hread
      obtain ⟨k, t, hk, ht, heof⟩ := ih (s := s.next.2) (by omega) (by rw [failure_next, hfailure])
      exact ⟨k + 1, t, by omega, ht, heof⟩

/-- Steps go on after the last result. -/
theorem exists_steps_eq {k : Nat} (hn : n ≤ k) : ∃ more, s.steps k = s.upTo n ++ more := by
  induction n generalizing s k with
  | zero => exact ⟨_, rfl⟩
  | succ n ih =>
    obtain ⟨k, rfl⟩ : ∃ m, k = m + 1 := ⟨k - 1, by omega⟩
    rw [upTo, steps]
    split
    · exact ⟨_, rfl⟩
    · obtain ⟨more, hmore⟩ := ih (s := s.next.2) (by omega : n ≤ k)
      exact ⟨more, by rw [hmore, List.cons_append]⟩

/-- The results of a text, through the last one, whatever comes after it. -/
theorem upTo_pairs (hn : s.ahead.length < n) (more more' : List (Except SourceError Token)) :
    Reading.Pairs ⟨id, s.failure.map .unreadable⟩ (s.upTo n ++ more) (s.upTo n ++ more') := by
  induction n generalizing s with
  | zero => omega
  | succ _ ih =>
    rw [upTo]
    cases hread : isRead s.next.1 with
    | false =>
      rcases isLast_of_not_isRead hread with ⟨-, t, ht, heof⟩ | ⟨message, hfailure, hmessage⟩
      · rw [ht, if_pos (by simp [isLast, heof])]
        exact .eof heof
      · rw [hmessage, hfailure]
        exact .stop rfl
    | true =>
      have hlt := length_lt_of_isRead hread
      have hrest := ih (s := s.next.2) (by omega)
      rw [failure_next] at hrest
      generalize hresult : s.next.1 = result at hread
      cases result with
      | ok =>
        rw [if_neg (by simpa [isLast, isRead] using hread)]
        exact .token hrest
      | error e =>
        cases e with
        | malformed => exact .malformed (cause_ne_outOfSteps hresult)
        | unreadable => cases hread

end Scanner

/-- The tokens before a last result, and that result, whatever comes after it. -/
theorem Reading.exists_pairs_of_isLast (ts : List Token) {last : Except SourceError Token} (hlast : isLast last)
    (hcause : ∀ span, last ≠ .error (.malformed .outOfSteps span)) : ∃ failure : Option String, ∀ more more',
      Reading.Pairs ⟨id, failure.map .unreadable⟩ (ts.map .ok ++ [last] ++ more) (ts.map .ok ++ [last] ++ more') := by
  obtain ⟨failure, hpairs⟩ : ∃ failure : Option String, ∀ more more',
      Reading.Pairs ⟨id, failure.map .unreadable⟩ (last :: more) (last :: more') := by
    cases last with
    | ok => exact ⟨none, fun _ _ => .eof (by simpa [isLast] using hlast)⟩
    | error e =>
      cases e with
      | malformed cause span =>
        have hne : cause ≠ .outOfSteps := by
          rintro rfl
          exact hcause span rfl
        exact ⟨none, fun _ _ => .malformed hne⟩
      | unreadable message => exact ⟨some message, fun _ _ => .stop rfl⟩
  refine ⟨failure, fun more more' => ?_⟩
  induction ts with
  | nil => exact hpairs more more'
  | cons _ _ ih => exact .token ih

theorem Program.moved_id (p : Program Unit) : p.moved id = p := by
  have hdef (d : Def Unit) : d.moved id = d := by
    cases d with
    | enum => rfl
    | func f => exact congrArg Def.func f.moved_id
  have hdefs : p.defs.map (·.moved id) = p.defs := List.map_id'' hdef p.defs
  rw [moved, hdefs]

/-- If parsers fare alike whatever comes after some results, they make do with these. -/
theorem Program.ofTokens_append {results : List (Except SourceError Token)} {failure : Option String}
    (h : ∀ more more', Reading.Pairs ⟨id, failure.map .unreadable⟩ (results ++ more) (results ++ more'))
    (more : List (Except SourceError Token)) : ofTokens (results ++ more) = ofTokens results ∧ ∀ span,
    ofTokens results ≠ .error (.malformed .outOfSteps span) := by
  have hpairs := ofTokens_pairs rfl (h [] more)
  have hpairs' := ofTokens_pairs rfl (h more [])
  rw [List.append_nil] at hpairs hpairs'
  rcases hpairs with ⟨e, hstop, hfail⟩ | ⟨cause, span, hcause, hfail, hfail'⟩ | ⟨p, hok, hok'⟩
  · obtain ⟨message, -, rfl⟩ := Option.map_eq_some_iff.1 hstop
    rw [hfail]
    refine ⟨?_, by simp⟩
    rcases hpairs' with ⟨e, hstop', hfail'⟩ | ⟨_, _, -, -, hfail'⟩ | ⟨_, -, hok⟩
    · rw [hfail', Option.some.inj (hstop.symm.trans hstop')]
    · cases hfail.symm.trans hfail'
    · cases hfail.symm.trans hok
  · rw [hfail, hfail', Span.moved_id]
    exact ⟨rfl, by simp [hcause]⟩
  · rw [hok, hok', p.moved_id]
    exact ⟨rfl, by simp⟩

/-- Reading comes to its end. What a scanner reads takes a character, so the end of a text of `n` characters is among
    its first `n + 1` results. A parser is out of steps if it repeats or nests anything more often than there are
    results, or asks for one more; that never happens, whatever comes before the last result, and for a text `n + 1`
    results are enough. -/
theorem Source.reading_ends (chars : List Char) :
    (∀ s : Scanner, isRead s.next.1 → ∃ taken, taken ≠ [] ∧ s.ahead = taken ++ s.next.2.ahead) ∧
    (∃ k t, k ≤ chars.length ∧ ((start ⟨chars, none⟩).steps (chars.length + 1))[k]? = some (.ok t) ∧ t.kind = .eof) ∧
    (∀ (ts : List Token) (last : Except SourceError Token) (more : List (Except SourceError Token)), isLast last →
      (∀ span, last ≠ .error (.malformed .outOfSteps span)) →
      ofTokens (ts.map .ok ++ last :: more) = ofTokens (ts.map .ok ++ [last]) ∧
      ∀ span, ofTokens (ts.map .ok ++ [last]) ≠ .error (.malformed .outOfSteps span)) ∧
    ∀ failure, (∀ k, chars.length < k → ofTokens ((start ⟨chars, failure⟩).steps k) = parse ⟨chars, failure⟩) ∧
      ∀ span, parse ⟨chars, failure⟩ ≠ .error (.malformed .outOfSteps span) := by
  refine ⟨fun s => exists_taken, exists_eof (s := start ⟨chars, none⟩) (Nat.lt_succ_self _) rfl,
    fun ts last more hlast hcause => ?_, fun failure => ?_⟩
  · obtain ⟨failure, hpairs⟩ := Reading.exists_pairs_of_isLast ts hlast hcause
    have hends := ofTokens_append hpairs more
    rwa [List.append_assoc] at hends
  · have hpairs := upTo_pairs (s := start ⟨chars, failure⟩) (Nat.lt_succ_self chars.length)
    refine ⟨fun k hk => ?_, (ofTokens_append hpairs []).2⟩
    obtain ⟨more, hsteps⟩ := exists_steps_eq (s := start ⟨chars, failure⟩) hk
    rw [hsteps]
    exact (ofTokens_append hpairs more).1

/-- Four characters, of which the last is no token. -/
theorem Source.reading_ends_at_sign : (isRead (start ⟨['f', 'n', ' ', '@'], none⟩).next.1 ∧ ∃ taken, taken ≠ [] ∧
      ['f', 'n', ' ', '@'] = taken ++ (start ⟨['f', 'n', ' ', '@'], none⟩).next.2.ahead) ∧
    (isLast (.error (.malformed (.unexpectedCharacter '@') ⟨⟨0, 3⟩, ⟨0, 4⟩⟩)) ∧
      ofTokens [.ok ⟨.kwFn, "fn", ⟨⟨0, 0⟩, ⟨0, 2⟩⟩⟩, .error (.malformed (.unexpectedCharacter '@') ⟨⟨0, 3⟩, ⟨0, 4⟩⟩),
          .ok ⟨.eof, "", ⟨⟨0, 4⟩, ⟨0, 4⟩⟩⟩] =
        ofTokens [.ok ⟨.kwFn, "fn", ⟨⟨0, 0⟩, ⟨0, 2⟩⟩⟩, .error (.malformed (.unexpectedCharacter '@') ⟨⟨0, 3⟩, ⟨0, 4⟩⟩)])
          ∧
    4 < 6 ∧ ofTokens ((start ⟨['f', 'n', ' ', '@'], none⟩).steps 6) = parse ⟨['f', 'n', ' ', '@'], none⟩ := by
  obtain ⟨htaken, -, htokens, hparse⟩ := reading_ends ['f', 'n', ' ', '@']
  have hread : isRead (start ⟨['f', 'n', ' ', '@'], none⟩).next.1 := by decide
  exact ⟨⟨hread, htaken _ hread⟩, ⟨rfl, (htokens [⟨.kwFn, "fn", ⟨⟨0, 0⟩, ⟨0, 2⟩⟩⟩] _ _ rfl (by simp)).1⟩, by decide,
    (hparse none).1 6 (by decide)⟩

end LocLang
