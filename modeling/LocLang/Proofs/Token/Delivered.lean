import LocLang.Proofs.Token.Scanning

namespace LocLang

open List

variable {cause : SyntaxCause}

theorem while_append_of_ne_nil {p : Char → Bool} {cs : List Char} (h : cs.dropWhile p ≠ []) (more : List Char) :
    (cs ++ more).takeWhile p = cs.takeWhile p ∧ (cs ++ more).dropWhile p = cs.dropWhile p ++ more := by
  induction cs with
  | nil => exact absurd rfl h
  | cons c _ ih =>
    by_cases hc : p c
    · rw [dropWhile_cons_of_pos hc] at h
      obtain ⟨htake, hdrop⟩ := ih h
      simp [hc, htake, hdrop]
    · simp [hc]

namespace Lexeme

variable {kind : TokenKind}

/-- The same lexeme in a text that goes on. -/
def followedBy (l : Lexeme) (more : List Char) : Lexeme :=
  { l with rest := l.rest ++ more }

variable {c : Char} {cs raw : List Char}

theorem GoesOn.ne_nil {l : Lexeme} (h : l.GoesOn raw cs) (hrest : l.rest ≠ []) : cs ≠ [] := by
  obtain ⟨more, -, rfl⟩ := h
  exact append_ne_nil_of_right_ne_nil more hrest

theorem lastDigits_more (h : (lastDigits raw cs).rest ≠ []) (more : List Char) :
    lastDigits raw (cs ++ more) = (lastDigits raw cs).followedBy more := by
  obtain ⟨htake, hdrop⟩ := while_append_of_ne_nil h more
  rw [lastDigits, htake, hdrop]
  rfl

theorem exponent_more (h : (exponent kind raw cs).rest ≠ []) (more : List Char) :
    exponent kind raw (cs ++ more) = (exponent kind raw cs).followedBy more := by
  fun_cases exponent kind raw cs with
  | case1 => simp [exponent] at h
  | case2 _ he => simp [exponent, he, lastDigits] at h
  | case3 e he s cs hs | case4 e he s cs hs =>
    simp only [exponent, he, hs, if_true] at h
    simp only [cons_append, exponent, he, hs, if_true]
    exact lastDigits_more h more
  | case5 _ _ he =>
    simp [exponent, he, followedBy]

section Number

variable {whole cs' : List Char}

theorem number_of_fraction (htake : cs.takeWhile inDigits = whole) (hdrop : cs.dropWhile inDigits = '.' :: cs')
    (h : (lastDigits (whole ++ ['.']) cs').outcome = .ok kind) :
    number cs = exponent kind (lastDigits (whole ++ ['.']) cs').raw (lastDigits (whole ++ ['.']) cs').rest := by
  simp [number, htake, hdrop, h]

theorem number_of_point (htake : cs.takeWhile inDigits = whole) (hdrop : cs.dropWhile inDigits = '.' :: cs')
    (h : (lastDigits (whole ++ ['.']) cs').outcome = .error cause) : number cs = lastDigits (whole ++ ['.']) cs' := by
  simp [number, htake, hdrop, h]

theorem number_of_whole (htake : cs.takeWhile inDigits = whole) (hdrop : cs.dropWhile inDigits = c :: cs')
    (hc : c ≠ '.') : number cs = exponent .intLit whole (c :: cs') := by
  simp [number, htake, hdrop, hc]

end Number

theorem number_more (h : (number cs).rest ≠ []) (more : List Char) :
    number (cs ++ more) = (number cs).followedBy more := by
  have hne := (goesOn_number cs).ne_nil h
  obtain ⟨htake, hdrop⟩ := while_append_of_ne_nil hne more
  obtain ⟨c, cs', hcs⟩ := exists_cons_of_ne_nil hne
  rw [hcs, cons_append] at hdrop
  by_cases hc : c = '.'
  · subst hc
    cases houtcome : (lastDigits (cs.takeWhile inDigits ++ ['.']) cs').outcome with
    | ok =>
      rw [number_of_fraction rfl hcs houtcome] at h ⊢
      have hfraction := lastDigits_more ((goesOn_exponent _ _ _).ne_nil h) more
      rw [number_of_fraction htake hdrop (by rw [hfraction]; exact houtcome), hfraction]
      exact exponent_more h more
    | error =>
      rw [number_of_point rfl hcs houtcome] at h ⊢
      have hfraction := lastDigits_more h more
      rw [number_of_point htake hdrop (by rw [hfraction]; exact houtcome), hfraction]
  · rw [number_of_whole rfl hcs hc] at h ⊢
    rw [number_of_whole htake hdrop hc]
    exact exponent_more h more

theorem word_more (h : (word cs).rest ≠ []) (more : List Char) : word (cs ++ more) = (word cs).followedBy more := by
  obtain ⟨htake, hdrop⟩ := while_append_of_ne_nil h more
  rw [word, htake, hdrop]
  rfl

theorem looksAhead_lastDigits (raw cs : List Char) : (lastDigits raw cs).looksAhead := by
  unfold looksAhead lastDigits
  split
  · next h =>
    split at h <;> cases h
  · rfl
  · next h =>
    split at h <;> cases h
    rfl

theorem looksAhead_exponent (hkind : kind.isPair = false) (raw cs : List Char) :
    (exponent kind raw cs).looksAhead := by
  fun_cases exponent kind raw cs with
  | case1 => simp [looksAhead, hkind]
  | case2 | case3 | case4 => exact looksAhead_lastDigits _ _
  | case5 => simp [looksAhead, hkind]

theorem looksAhead_number (cs : List Char) : (number cs).looksAhead := by
  fun_cases number cs with
  | case1 _ _ _ _ _ hkind =>
    obtain ⟨rfl, -⟩ := of_lastDigits_ok hkind
    exact looksAhead_exponent (by decide) _ _
  | case2 => exact looksAhead_lastDigits _ _
  | case3 => exact looksAhead_exponent (by decide) _ _

theorem looksAhead_word (cs : List Char) : (word cs).looksAhead := by
  have hall : ∀ p ∈ TokenKind.keywords, p.2.isPair = false := by decide
  have hpair : (TokenKind.ofWord (.ofList (cs.takeWhile continuesWord))).isPair = false := by
    unfold TokenKind.ofWord
    cases hlookup : TokenKind.keywords.lookup (.ofList (cs.takeWhile continuesWord)) with
    | none => rfl
    | some => exact hall _ (mem_of_lookup_eq_some hlookup)
  simp [looksAhead, word, hpair]

/-- A symbol is decided by its first character, or by the one after it as well. -/
theorem symbol_more (h : (symbol c cs).rest = [] → (symbol c cs).looksAhead = false) (more : List Char) :
    symbol c (cs ++ more) = (symbol c cs).followedBy more := by
  cases hsingle : TokenKind.singles.lookup c with
  | none => simp [symbol, hsingle, followedBy]
  | some =>
    cases cs with
    | nil =>
      have hall : ∀ p ∈ TokenKind.singles, p.2.isPair = false := by decide
      have hpair := hall _ (mem_of_lookup_eq_some hsingle)
      simp [symbol, hsingle, looksAhead, hpair] at h
    | cons d =>
      cases hlookup : TokenKind.pairs.lookup (c, d) with
      | none | some kind' => simp [symbol, hsingle, hlookup, followedBy]

theorem rest_ne_nil {l : Lexeme} (hahead : l.looksAhead) (h : l.rest = [] → l.looksAhead = false) : l.rest ≠ [] :=
  fun hrest => Bool.false_ne_true ((h hrest).symm.trans hahead)

/-- A lexeme stays the same in a text that goes on, if the character after it was seen or does not matter. -/
theorem ofChars_more (h : (ofChars c cs).rest = [] → (ofChars c cs).looksAhead = false) (more : List Char) :
    ofChars c (cs ++ more) = (ofChars c cs).followedBy more := by
  unfold ofChars at h ⊢
  by_cases hdigit : c.isDigit
  · rw [if_pos hdigit] at h
    rw [if_pos hdigit, if_pos hdigit]
    exact number_more (rest_ne_nil (looksAhead_number _) h) more
  · rw [if_neg hdigit] at h
    rw [if_neg hdigit, if_neg hdigit]
    by_cases hword : startsWord c
    · rw [if_pos hword] at h
      rw [if_pos hword, if_pos hword]
      exact word_more (rest_ne_nil (looksAhead_word _) h) more
    · rw [if_neg hword] at h
      rw [if_neg hword, if_neg hword]
      exact symbol_more h more

end Lexeme

/-- Blanks and comments end at the same place in a text that goes on, unless a slash stands last: a second one may
    follow. -/
theorem skipTrivia_more {comment : Bool} {pos pos' : Pos} {chars cs : List Char} {c : Char}
    (h : skipTrivia comment pos chars = (pos', c :: cs)) (hslash : c = '/' → cs ≠ []) (more : List Char) :
    skipTrivia comment pos (chars ++ more) = (pos', c :: (cs ++ more)) := by
  fun_induction skipTrivia comment pos chars with
  | case1 => cases h
  | case2 _ _ _ ih =>
    exact ih h
  | case3 _ _ _ hblank ih =>
    rw [cons_append, skipTrivia, if_pos hblank]
    exact ih h
  | case4 _ _ ds hblank hslashes ih =>
    have hhead : (ds ++ more).head? = ds.head? := by
      cases ds with
      | nil => simp at hslashes
      | cons => rfl
    rw [cons_append, skipTrivia, if_neg hblank, hhead, if_pos hslashes]
    exact ih h
  | case5 _ _ _ hblank hslashes =>
    cases h
    rw [cons_append, skipTrivia, if_neg hblank, if_neg ?_]
    cases cs with
    | nil => simp [show c ≠ '/' from fun hc => hslash hc rfl]
    | cons => exact hslashes

/-- What a lexeme at the given place gives. -/
def Lexeme.result (l : Lexeme) (span : Span) : Except SourceError Token :=
  match l.outcome with
  | .ok kind => .ok ⟨kind, l.text kind, span⟩
  | .error cause => .error (.malformed cause span)

namespace Lexeme

theorem outcome_lastDigits (raw cs : List Char) : (lastDigits raw cs).outcome ≠ .error .outOfSteps := by
  unfold lastDigits
  split <;> simp

theorem outcome_exponent (kind : TokenKind) (raw cs : List Char) :
    (exponent kind raw cs).outcome ≠ .error .outOfSteps := by
  fun_cases exponent kind raw cs with
  | case1 | case5 => simp
  | case2 | case3 | case4 => exact outcome_lastDigits _ _

theorem outcome_number (cs : List Char) : (number cs).outcome ≠ .error .outOfSteps := by
  fun_cases number cs with
  | case1 | case3 => exact outcome_exponent _ _ _
  | case2 => exact outcome_lastDigits _ _

/-- A lexeme is malformed for what its characters are. -/
theorem outcome_ofChars (c : Char) (cs : List Char) : (ofChars c cs).outcome ≠ .error .outOfSteps := by
  unfold ofChars
  split
  · exact outcome_number _
  · split
    · simp [word]
    · fun_cases symbol c cs <;> simp

end Lexeme

namespace Scanner

variable {pos pos' : Pos} {chars cs : List Char} {c : Char} {message : String} {failure : Option String}

theorem next_of_seen (hskip : skipTrivia false pos chars = (pos', c :: cs))
    (hseen : (Lexeme.ofChars c cs).rest = [] → (Lexeme.ofChars c cs).looksAhead = false) :
    next ⟨pos, chars, failure⟩ = ((Lexeme.ofChars c cs).result ⟨pos', pos'.after (Lexeme.ofChars c cs).raw⟩,
      ⟨pos'.after (Lexeme.ofChars c cs).raw, (Lexeme.ofChars c cs).rest, failure⟩) := by
  rw [next, hskip]
  dsimp only
  split
  · next hrest hahead => exact absurd hahead (Bool.eq_false_iff.1 (hseen hrest))
  · rfl

/-- A failure to read on comes before anything that depends on the next character. -/
theorem seen_of_next (hskip : skipTrivia false pos chars = (pos', c :: cs))
    (h : (next ⟨pos, chars, some message⟩).1 ≠ .error (.unreadable message)) (hrest : (Lexeme.ofChars c cs).rest = []) :
    (Lexeme.ofChars c cs).looksAhead = false := by
  cases hahead : (Lexeme.ofChars c cs).looksAhead with
  | false => rfl
  | true => exact absurd (by simp only [next, hskip, hrest, hahead]) h

theorem cause_ne_outOfSteps {s : Scanner} {span : Span} (h : s.next.1 = .error (.malformed cause span)) :
    cause ≠ .outOfSteps := by
  rintro rfl
  unfold next at h
  rcases hskip : skipTrivia false s.pos s.ahead with ⟨pos, _ | ⟨c, cs⟩⟩
  · simp only [hskip] at h
    split at h <;> cases h
  · simp only [hskip] at h
    split at h
    · cases h
    · split at h
      · cases h
      · next houtcome =>
        cases h
        exact Lexeme.outcome_ofChars c cs houtcome

/-- Whatever a step gives but the failure to read on, it gives in every text that goes on. -/
theorem next_more (more : List Char) (failure : Option String)
    (h : (next ⟨pos, chars, some message⟩).1 ≠ .error (.unreadable message)) :
      next ⟨pos, chars ++ more, failure⟩ = ((next ⟨pos, chars, some message⟩).1,
      ⟨(next ⟨pos, chars, some message⟩).2.pos, (next ⟨pos, chars, some message⟩).2.ahead ++ more, failure⟩) := by
  rcases hskip : skipTrivia false pos chars with ⟨pos', _ | ⟨c, cs⟩⟩
  · exact absurd (by rw [next, hskip]) h
  · have hseen := seen_of_next hskip h
    have hslash : c = '/' → cs ≠ [] := by
      rintro rfl rfl
      exact absurd (hseen rfl) (by decide)
    have hlexeme := Lexeme.ofChars_more hseen more
    have hseen' : (Lexeme.ofChars c (cs ++ more)).rest = [] → (Lexeme.ofChars c (cs ++ more)).looksAhead = false := by
      rw [hlexeme]
      exact fun hrest => hseen (append_eq_nil_iff.1 hrest).1
    rw [next_of_seen (skipTrivia_more hskip hslash more) hseen', next_of_seen hskip hseen, hlexeme]
    rfl

end Scanner

/-- Whether one list of results is another one that is cut short by the error `stop`, or both have the same tokens up to
    a malformed one. -/
inductive Cut (stop : SourceError) : List (Except SourceError Token) → List (Except SourceError Token) → Prop
  | stop {rest : List (Except SourceError Token)} : Cut stop [.error stop] rest
  | malformed {cause : SyntaxCause} {span : Span} {rest rest' : List (Except SourceError Token)}
      (hcause : cause ≠ .outOfSteps) : Cut stop (.error (.malformed cause span) :: rest)
      (.error (.malformed cause span) :: rest')
  | token {t : Token} {rest rest' : List (Except SourceError Token)} (hrest : Cut stop rest rest') :
      Cut stop (.ok t :: rest) (.ok t :: rest')

/-- The tokens of a text that cannot be read to its end are those of every text that goes on, cut short by the failure.
    -/
theorem Scanner.upTo_cut {pos : Pos} {chars : List Char} {message : String} {n n' : Nat} (hn : chars.length < n)
    (hn' : chars.length < n') (more : List Char) (failure : Option String) :
    Cut (.unreadable message) (upTo n ⟨pos, chars, some message⟩) (upTo n' ⟨pos, chars ++ more, failure⟩) := by
  induction n generalizing pos chars n' with
  | zero => omega
  | succ _ ih =>
    obtain ⟨n', rfl⟩ : ∃ k, n' = k + 1 := ⟨n' - 1, by omega⟩
    obtain ⟨gap, raw, rest, hreads⟩ := exists_reads ⟨pos, chars, some message⟩
    have hahead : chars = gap ++ (raw ++ rest) := hreads.ahead_eq
    have hnext := hreads.next_eq
    have hlexed := hreads.lexed
    have hmore := @next_more pos chars message more failure
    rw [upTo, upTo]
    generalize hresult : (next ⟨pos, chars, some message⟩).1 = result at hlexed hmore
    cases hlexed with
    | eof _ _ hfailure => cases hfailure
    | unreadable _ hfailure =>
      cases hfailure
      exact .stop
    | malformed =>
      rw [hmore (by simp)]
      exact .malformed (cause_ne_outOfSteps hresult)
    | @token kind hraw hkind =>
      rw [hmore (by simp), hnext]
      have hlast : isLast (.ok ⟨kind, .ofList (if kind.isNumber then raw.filter (· ≠ '_') else raw),
          ⟨pos.after gap, (pos.after gap).after raw⟩⟩) = false := by simpa [isLast] using hkind
      have hlength : rest.length < chars.length := by
        have hpos := length_pos_iff.2 hraw
        simp only [hahead, length_append]
        omega
      rw [hlast]
      exact .token (ih (by omega) (by omega))

/-- A text that cannot be read to its end has no end. -/
theorem Scanner.kind_ne_eof_of_mem_upTo {n : Nat} {s : Scanner} {t : Token} (hfailure : s.failure ≠ none)
    (h : .ok t ∈ s.upTo n) : t.kind ≠ .eof := by
  induction n generalizing s with
  | zero => cases h
  | succ _ ih =>
    obtain ⟨gap, raw, rest, hreads⟩ := s.exists_reads
    have hfirst : .ok t = s.next.1 → t.kind ≠ .eof := by
      intro heq
      have hlexed := hreads.lexed
      rw [← heq] at hlexed
      cases hlexed with
      | token _ hkind => exact hkind
      | eof _ _ hnone => exact absurd hnone hfailure
    rw [upTo] at h
    split at h
    · exact hfirst (mem_singleton.1 h)
    · rcases mem_cons.1 h with heq | h
      · exact hfirst heq
      · exact ih (by rw [hreads.next_eq]; exact hfailure) h

end LocLang
