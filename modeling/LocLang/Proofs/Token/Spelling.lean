import LocLang.Token.Scanner

namespace LocLang

open List TokenKind

variable {cs rest : List Char} {c : Char} {p : Char → Bool} {ts : List Token} {chars : List Char} {pos pos' : Pos}

/-- Whether a text has no character with the property `p` at its front. -/
def StopsAt (p : Char → Bool) (cs : List Char) : Prop :=
  ∀ c ∈ cs.head?, p c = false

theorem takeWhile_append_of_stopsAt (hcs : ∀ c ∈ cs, p c) (hrest : StopsAt p rest) :
    (cs ++ rest).takeWhile p = cs := by
  rw [takeWhile_append_of_pos hcs]
  cases rest with
  | nil => simp
  | cons c => simp [hrest c rfl]

theorem dropWhile_append_of_stopsAt (hcs : ∀ c ∈ cs, p c) (hrest : StopsAt p rest) :
    (cs ++ rest).dropWhile p = rest := by
  rw [dropWhile_append_of_pos hcs]
  cases rest with
  | nil => simp
  | cons c => simp [hrest c rfl]

/-- What may stand after a token that is written alone: nothing, or a blank. -/
def EndsToken (cs : List Char) : Prop :=
  ∀ c ∈ cs.head?, c = ' '

theorem EndsToken.stopsAt (h : EndsToken cs) (hp : p ' ' = false) : StopsAt p cs :=
  fun c hc => h c hc ▸ hp

namespace Lexeme

variable {kind : TokenKind}

theorem ne_underscore_of_isDigit (h : c.isDigit) : c ≠ '_' := by
  rintro rfl
  exact absurd h (by decide)

/-- A run of digits, of which there is one. -/
structure Digits (cs : List Char) : Prop where
  all : ∀ c ∈ cs, inDigits c
  any : cs.any Char.isDigit

theorem Digits.filter (h : Digits cs) : Digits (cs.filter (· ≠ '_')) where
  all c hc := h.all c (mem_filter.1 hc).1
  any := by
    obtain ⟨d, hd, hdigit⟩ := any_eq_true.1 h.any
    refine any_eq_true.2 ⟨d, mem_filter.2 ⟨hd, ?_⟩, hdigit⟩
    simpa using ne_underscore_of_isDigit hdigit

/-- A run of digits that starts with one. -/
structure Whole (cs : List Char) : Prop where
  all : ∀ c ∈ cs, inDigits c
  starts : ∃ c cs', cs = c :: cs' ∧ c.isDigit

theorem Whole.filter (h : Whole cs) : Whole (cs.filter (· ≠ '_')) where
  all c hc := h.all c (mem_filter.1 hc).1
  starts := by
    obtain ⟨c, cs', rfl, hdigit⟩ := h.starts
    exact ⟨c, _, filter_cons_of_pos (by simpa using ne_underscore_of_isDigit hdigit), hdigit⟩

/-- The part of a number before its exponent, with the kind of token that it is. -/
inductive Mantissa : TokenKind → List Char → Prop
  | whole {ws : List Char} (hws : Whole ws) : Mantissa .intLit ws
  | fraction {ws fs : List Char} (hws : Whole ws) (hfs : Digits fs) : Mantissa .floatLit (ws ++ '.' :: fs)

/-- The characters of a number, with the kind of token that it is. -/
inductive Numeral : TokenKind → List Char → Prop
  | plain {kind : TokenKind} {ms : List Char} (hms : Mantissa kind ms) : Numeral kind ms
  | scaled {kind : TokenKind} {ms sign ds : List Char} {e : Char} (hms : Mantissa kind ms) (he : e = 'e' ∨ e = 'E')
      (hsign : sign = [] ∨ sign = ['-'] ∨ sign = ['+']) (hds : Digits ds) : Numeral .floatLit (ms ++ e :: (sign ++ ds))

theorem Mantissa.filter {ms : List Char} (h : Mantissa kind ms) : Mantissa kind (ms.filter (· ≠ '_')) := by
  cases h with
  | whole hws => exact .whole hws.filter
  | fraction hws hfs =>
    rw [filter_append, filter_cons_of_pos (by decide)]
    exact .fraction hws.filter hfs.filter

/-- A number stays one without its underscores. -/
theorem Numeral.filter (h : Numeral kind cs) : Numeral kind (cs.filter (· ≠ '_')) := by
  cases h with
  | plain hms => exact .plain hms.filter
  | scaled hms he hsign hds =>
    rw [filter_append, filter_cons_of_pos (by rcases he with rfl | rfl <;> decide), filter_append]
    refine .scaled hms.filter he ?_ hds.filter
    rcases hsign with rfl | rfl | rfl <;> simp

theorem Mantissa.starts {ms : List Char} (h : Mantissa kind ms) : ∃ c cs, ms = c :: cs ∧ c.isDigit := by
  cases h with
  | whole hws => exact hws.starts
  | fraction hws =>
    obtain ⟨c, cs, rfl, hdigit⟩ := hws.starts
    exact ⟨c, _, cons_append, hdigit⟩

theorem Numeral.starts {ns : List Char} (h : Numeral kind ns) : ∃ c cs, ns = c :: cs ∧ c.isDigit := by
  cases h with
  | plain hms => exact hms.starts
  | scaled hms =>
    obtain ⟨c, cs, rfl, hdigit⟩ := hms.starts
    exact ⟨c, _, cons_append, hdigit⟩

theorem Numeral.isNumber (h : Numeral kind cs) : kind.isNumber := by
  cases h with
  | plain hms => cases hms <;> rfl
  | scaled => rfl

section Read

variable {kind : TokenKind} {raw ms cs rest : List Char}

theorem lastDigits_append {ds : List Char} (hds : Digits ds) (hrest : StopsAt inDigits rest) :
    lastDigits raw (ds ++ rest) = ⟨.ok .floatLit, raw ++ ds, rest⟩ := by
  rw [lastDigits, takeWhile_append_of_stopsAt hds.all hrest, dropWhile_append_of_stopsAt hds.all hrest, hds.any]
  rfl

theorem exponent_of_endsToken (hrest : EndsToken rest) : exponent kind raw rest = ⟨.ok kind, raw, rest⟩ := by
  cases rest with
  | nil => rfl
  | cons c =>
    obtain rfl : c = ' ' := hrest c rfl
    rfl

theorem exponent_append {e : Char} {sign ds : List Char} (he : e = 'e' ∨ e = 'E')
    (hsign : sign = [] ∨ sign = ['-'] ∨ sign = ['+']) (hds : Digits ds) (hrest : EndsToken rest) :
    exponent kind raw (e :: (sign ++ ds) ++ rest) = ⟨.ok .floatLit, raw ++ e :: (sign ++ ds), rest⟩ := by
  have hstops : StopsAt inDigits rest := hrest.stopsAt (by decide)
  have he' : (e = 'e' || e = 'E') = true := by simpa using he
  rcases hsign with rfl | rfl | rfl
  · obtain ⟨d, ds, rfl⟩ : ∃ d ds', ds = d :: ds' := by
      cases ds with
      | nil => exact absurd hds.any (by simp)
      | cons d ds => exact ⟨d, ds, rfl⟩
    have hin := hds.all d mem_cons_self
    have hminus : d ≠ '-' := by
      rintro rfl
      exact absurd hin (by decide)
    have hplus : d ≠ '+' := by
      rintro rfl
      exact absurd hin (by decide)
    have hlast : lastDigits (raw ++ [e]) (d :: (ds ++ rest)) = ⟨.ok .floatLit, raw ++ [e] ++ d :: ds, rest⟩ :=
      lastDigits_append hds hstops
    simp [exponent, he', hminus, hplus, hlast]
  · simp [exponent, he', lastDigits_append hds hstops]
  · simp [exponent, he', lastDigits_append hds hstops]

/-- Reading a number goes on with its exponent. -/
theorem number_append (hms : Mantissa kind ms) (hrest : StopsAt (fun c => inDigits c || c = '.') rest) :
    number (ms ++ rest) = exponent kind ms rest := by
  have hstops : StopsAt inDigits rest := fun c hc => by
    have hc := hrest c hc
    simp only [Bool.or_eq_false_iff] at hc
    exact hc.1
  cases hms with
  | whole hws =>
    rw [number, takeWhile_append_of_stopsAt hws.all hstops, dropWhile_append_of_stopsAt hws.all hstops]
    split
    · exact absurd (hrest '.' rfl) (by decide)
    · rfl
  | @fraction _ fs hws hfs =>
    have hdot : StopsAt inDigits ('.' :: (fs ++ rest)) := by
      rintro c ⟨⟩
      decide
    rw [append_assoc, cons_append, number, takeWhile_append_of_stopsAt hws.all hdot,
      dropWhile_append_of_stopsAt hws.all hdot]
    simp [lastDigits_append hfs hstops]

theorem number_eq (h : Numeral kind cs) (hrest : EndsToken rest) : number (cs ++ rest) = ⟨.ok kind, cs, rest⟩ := by
  cases h with
  | plain hms => rw [number_append hms (hrest.stopsAt (by decide)), exponent_of_endsToken hrest]
  | @scaled _ _ sign ds e hms he hsign hds =>
    have hexponent : StopsAt (fun c => inDigits c || c = '.') (e :: (sign ++ ds) ++ rest) := by
      rintro c ⟨⟩
      rcases he with rfl | rfl <;> decide
    rw [append_assoc, number_append hms hexponent, exponent_append he hsign hds hrest]

end Read

section Shape

variable {kind kind' : TokenKind} {raw ms cs : List Char}

theorem digits_takeWhile (cs : List Char) : ∀ c ∈ cs.takeWhile inDigits, inDigits c :=
  fun c hc => all_eq_true.1 all_takeWhile c hc

theorem of_lastDigits_ok (h : (lastDigits raw cs).outcome = .ok kind) :
    kind = .floatLit ∧ ∃ ds, Digits ds ∧ (lastDigits raw cs).raw = raw ++ ds := by
  rw [lastDigits] at h
  by_cases hany : (cs.takeWhile inDigits).any Char.isDigit
  · rw [if_pos hany] at h
    cases h
    exact ⟨rfl, cs.takeWhile inDigits, ⟨digits_takeWhile cs, hany⟩, rfl⟩
  · rw [if_neg hany] at h
    cases h

theorem numeral_of_lastDigits {e : Char} {sign : List Char} (hms : Mantissa kind ms) (he : e = 'e' ∨ e = 'E')
    (hsign : sign = [] ∨ sign = ['-'] ∨ sign = ['+']) (h : (lastDigits (ms ++ e :: sign) cs).outcome = .ok kind') :
    Numeral kind' (lastDigits (ms ++ e :: sign) cs).raw := by
  obtain ⟨rfl, ds, hds, hraw⟩ := of_lastDigits_ok h
  rw [hraw, append_assoc, cons_append]
  exact .scaled hms he hsign hds

theorem numeral_of_exponent (hms : Mantissa kind ms) (h : (exponent kind ms cs).outcome = .ok kind') :
    Numeral kind' (exponent kind ms cs).raw := by
  cases cs with
  | nil =>
    cases h
    exact .plain hms
  | cons e cs =>
    by_cases he : (e = 'e' || e = 'E') = true
    · have he' : e = 'e' ∨ e = 'E' := by simpa using he
      cases cs with
      | nil =>
        simp only [exponent, he, if_true] at h ⊢
        exact numeral_of_lastDigits hms he' (.inl rfl) h
      | cons s =>
        by_cases hs : (s = '-' || s = '+') = true
        · simp only [exponent, he, hs, if_true] at h ⊢
          have hsign : s = '-' ∨ s = '+' := by simpa using hs
          refine numeral_of_lastDigits hms he' ?_ h
          rcases hsign with rfl | rfl <;> simp
        · simp only [exponent, he, hs, if_true] at h ⊢
          exact numeral_of_lastDigits hms he' (.inl rfl) h
    · simp only [exponent, he] at h ⊢
      cases h
      exact .plain hms

theorem numeral_of_number (hdigit : c.isDigit) (h : (number (c :: cs)).outcome = .ok kind) :
    Numeral kind (number (c :: cs)).raw := by
  have hwhole : Whole ((c :: cs).takeWhile inDigits) :=
    ⟨digits_takeWhile _, c, _, takeWhile_cons_of_pos (by simp [inDigits, hdigit]), hdigit⟩
  generalize c :: cs = cs at h hwhole ⊢
  rw [number] at h ⊢
  split at h
  · next cs' _ =>
    dsimp only at h ⊢
    cases hfraction : (lastDigits (cs.takeWhile inDigits ++ ['.']) cs').outcome with
    | error =>
      rw [hfraction] at h
      exact absurd (hfraction.symm.trans h) nofun
    | ok =>
      rw [hfraction] at h
      obtain ⟨rfl, ds, hds, hraw⟩ := of_lastDigits_ok hfraction
      have hms : Mantissa .floatLit (lastDigits (cs.takeWhile inDigits ++ ['.']) cs').raw := by
        rw [hraw, append_assoc]
        exact .fraction hwhole hds
      exact numeral_of_exponent hms h
  · exact numeral_of_exponent (.whole hwhole) h

end Shape

/-- Whether a text, with a gap after it, is read as a token of the given kind with that text. -/
structure ReadsBack (kind : TokenKind) (text : List Char) : Prop where
  /-- The text does not start like a blank or a comment, and its characters are those of the token. -/
  read : ∃ c cs, text = c :: cs ∧ Text.isBlank c = false ∧ (c = '/' → cs = []) ∧
    ∀ rest, EndsToken rest → ofChars c (cs ++ rest) = ⟨.ok kind, text, rest⟩
  plain : kind.isNumber → '_' ∉ text
  kind_ne_eof : kind ≠ .eof

theorem isBlank_of_isDigit (h : c.isDigit) : Text.isBlank c = false := by
  have hrange : 48 ≤ c.toNat ∧ c.toNat ≤ 57 := by
    simpa [Char.isDigit, UInt32.le_iff_toNat_le] using h
  unfold Text.isBlank
  simp only [Bool.or_eq_false_iff, Bool.and_eq_false_iff, decide_eq_false_iff_not, beq_eq_false_iff_ne]
  omega

theorem Numeral.readsBack (h : Numeral kind cs) (hplain : '_' ∉ cs) : ReadsBack kind cs where
  read := by
    obtain ⟨c, cs', rfl, hdigit⟩ := h.starts
    refine ⟨c, cs', rfl, isBlank_of_isDigit hdigit, ?_, fun rest hrest => ?_⟩
    · rintro rfl
      exact absurd hdigit (by decide)
    · rw [ofChars, if_pos hdigit]
      exact number_eq h hrest
  plain _ := hplain
  kind_ne_eof := by
    rintro rfl
    exact absurd h.isNumber (by decide)

theorem mem_of_lookup_eq_some {α β : Type} [BEq α] [LawfulBEq α] {table : List (α × β)} {a : α} {b : β}
    (h : table.lookup a = some b) : (a, b) ∈ table := by
  obtain ⟨before, after, rfl, -⟩ := lookup_eq_some_iff.1 h
  simp

/-- Whether tokens of this kind have all characters that they are read from in their text. -/
def IsPlain (kind : TokenKind) : Prop :=
  kind.isNumber = false ∧ kind ≠ .eof

instance (kind : TokenKind) : Decidable (IsPlain kind) :=
  inferInstanceAs (Decidable (_ ∧ _))

theorem isPlain_ofWord (word : String) : IsPlain (.ofWord word) := by
  have hall : ∀ p ∈ keywords, IsPlain p.2 := by decide
  unfold ofWord
  cases hlookup : keywords.lookup word with
  | none => decide
  | some => exact hall _ (mem_of_lookup_eq_some hlookup)

theorem isPlain_single (h : singles.lookup c = some kind) : IsPlain kind := by
  have hall : ∀ p ∈ singles, IsPlain p.2 := by decide
  exact hall _ (mem_of_lookup_eq_some h)

theorem isPlain_pair {d : Char} (h : pairs.lookup (c, d) = some kind) : IsPlain kind ∧ c ≠ '/' ∧ d ≠ ' ' := by
  have hall : ∀ p ∈ pairs, IsPlain p.2 ∧ p.1.1 ≠ '/' ∧ p.1.2 ≠ ' ' := by decide
  exact hall _ (mem_of_lookup_eq_some h)

section Front

variable {c d : Char} {cs : List Char} {kind kind' : TokenKind}

theorem word_readsBack (hblank : Text.isBlank c = false) (hdigit : ¬c.isDigit) (hstarts : startsWord c)
    (hcs : ∀ d ∈ cs, continuesWord d) : ReadsBack (.ofWord (.ofList (c :: cs))) (c :: cs) where
  read := by
    refine ⟨c, cs, rfl, hblank, ?_, fun rest hrest => ?_⟩
    · rintro rfl
      exact absurd hstarts (by decide)
    · have hall : ∀ d ∈ c :: cs, continuesWord d :=
        forall_mem_cons.2 ⟨by simp [continuesWord, hstarts], hcs⟩
      have hstops : StopsAt continuesWord rest := hrest.stopsAt (by decide)
      rw [ofChars, if_neg hdigit, if_pos hstarts, ← cons_append, word, takeWhile_append_of_stopsAt hall hstops,
        dropWhile_append_of_stopsAt hall hstops]
  plain hnumber := by simp [(isPlain_ofWord _).1] at hnumber
  kind_ne_eof := (isPlain_ofWord _).2

theorem single_readsBack (hblank : Text.isBlank c = false) (hdigit : ¬c.isDigit) (hword : ¬startsWord c)
    (h : singles.lookup c = some kind) : ReadsBack kind [c] where
  read := by
    refine ⟨c, [], rfl, hblank, fun _ => rfl, fun rest hrest => ?_⟩
    rw [ofChars, if_neg hdigit, if_neg hword, nil_append, symbol, h]
    cases rest with
    | nil => rfl
    | cons d =>
      obtain rfl : d = ' ' := hrest d rfl
      cases hpair : pairs.lookup (c, ' ') with
      | none => simp [hpair]
      | some => exact absurd rfl (isPlain_pair hpair).2.2
  plain hnumber := by simp [(isPlain_single h).1] at hnumber
  kind_ne_eof := (isPlain_single h).2

theorem pair_readsBack (hblank : Text.isBlank c = false) (hdigit : ¬c.isDigit) (hword : ¬startsWord c)
    (hsingle : singles.lookup c = some kind) (h : pairs.lookup (c, d) = some kind') :
    ReadsBack kind' [c, d] where
  read := by
    refine ⟨c, [d], rfl, hblank, fun hslash => absurd hslash (isPlain_pair h).2.1, fun rest _ => ?_⟩
    rw [ofChars, if_neg hdigit, if_neg hword, cons_append, nil_append, symbol, hsingle]
    simp [h]
  plain hnumber := by simp [(isPlain_pair h).1.1] at hnumber
  kind_ne_eof := (isPlain_pair h).1.2

theorem symbol_readsBack (hblank : Text.isBlank c = false) (hdigit : ¬c.isDigit) (hword : ¬startsWord c)
    (h : (symbol c cs).outcome = .ok kind) : ReadsBack kind (symbol c cs).raw := by
  unfold symbol at h ⊢
  cases hsingle : singles.lookup c with
  | none => simp [hsingle] at h
  | some =>
    simp only [hsingle] at h ⊢
    cases cs with
    | nil =>
      cases h
      exact single_readsBack hblank hdigit hword hsingle
    | cons d =>
      cases hpair : pairs.lookup (c, d) with
      | none =>
        simp only [hpair] at h ⊢
        cases h
        exact single_readsBack hblank hdigit hword hsingle
      | some =>
        simp only [hpair] at h ⊢
        cases h
        exact pair_readsBack hblank hdigit hword hsingle hpair

theorem ReadsBack.toList_text {l : Lexeme} (h : ReadsBack kind l.raw) : (l.text kind).toList = l.raw := by
  unfold text
  split
  · next hnumber =>
    have hfilter : l.raw.filter (· ≠ '_') = l.raw := by
      apply filter_eq_self.2
      intro c hc
      have hne : c ≠ '_' := fun heq => h.plain hnumber (heq ▸ hc)
      simpa using hne
    rw [String.toList_ofList, hfilter]
  · rw [String.toList_ofList]

/-- The text of a lexeme is read back. -/
theorem readsBack (hblank : Text.isBlank c = false) (h : (ofChars c cs).outcome = .ok kind) :
    ReadsBack kind ((ofChars c cs).text kind).toList := by
  unfold ofChars at h ⊢
  by_cases hdigit : c.isDigit
  · rw [if_pos hdigit] at h ⊢
    have hnumeral := numeral_of_number hdigit h
    have hread := hnumeral.filter.readsBack (by simp)
    simpa [text, hnumeral.isNumber] using hread
  · rw [if_neg hdigit] at h ⊢
    by_cases hword : startsWord c
    · rw [if_pos hword] at h ⊢
      have hraw : (word (c :: cs)).raw = c :: cs.takeWhile continuesWord :=
        takeWhile_cons_of_pos (by simp [continuesWord, hword])
      have hread := word_readsBack hblank hdigit hword fun d hd => all_eq_true.1 (all_takeWhile (l := cs)) d hd
      have hkind : kind = .ofWord (.ofList (word (c :: cs)).raw) := (Except.ok.inj h).symm
      rw [← hraw, ← hkind] at hread
      rw [hread.toList_text]
      exact hread
    · rw [if_neg hword] at h ⊢
      have hread := symbol_readsBack hblank hdigit hword h
      rw [hread.toList_text]
      exact hread

end Front

end Lexeme

/-- Whether a token is read back from its text. -/
def Token.ReadsBack (t : Token) : Prop :=
  Lexeme.ReadsBack t.kind t.text.toList

/-- The characters of tokens, each with a blank before it. -/
def Token.spaced (ts : List Token) : List Char :=
  ts.flatMap fun t => ' ' :: t.text.toList

theorem Token.endsToken_spaced (ts : List Token) : EndsToken (spaced ts) := by
  cases ts with
  | nil => nofun
  | cons =>
    rintro c ⟨⟩
    rfl

theorem Token.length_le_spaced (ts : List Token) : ts.length ≤ (spaced ts).length := by
  induction ts with
  | nil => simp
  | cons _ _ ih =>
    simp only [spaced, flatMap_cons, length_cons, length_append] at ih ⊢
    omega

theorem Token.intercalate_texts (t : Token) (ts : List Token) :
    (" ".intercalate ((t :: ts).map (·.text))).toList = t.text.toList ++ spaced ts := by
  rw [String.toList_intercalate]
  induction ts generalizing t with
  | nil => simp [spaced]
  | cons _ _ ih =>
    simp only [map_cons] at ih ⊢
    rw [intercalate_cons_cons, ih]
    simp [spaced]

/-- Where blanks and comments end there is no blank. -/
theorem isBlank_of_skipTrivia {comment : Bool}
    (h : skipTrivia comment pos chars = (pos', c :: cs)) : Text.isBlank c = false := by
  fun_induction skipTrivia comment pos chars with
  | case1 => cases h
  | case2 _ _ _ ih => exact ih h
  | case3 _ _ _ _ ih => exact ih h
  | case4 _ _ _ _ _ ih => exact ih h
  | case5 _ _ _ hblank =>
    cases h
    simpa using hblank

namespace Scanner

variable {s : Scanner} {t : Token}

/-- Every token but the end of the file is read back from its text. -/
theorem readsBack_of_next (h : s.next.1 = .ok t) : (t.kind = .eof ∧ t.text = "") ∨ t.ReadsBack := by
  unfold next at h
  rcases hskip : skipTrivia false s.pos s.ahead with ⟨pos, _ | ⟨c, cs⟩⟩
  · simp only [hskip] at h
    split at h
    · cases h
    · cases h
      exact .inl ⟨rfl, rfl⟩
  · simp only [hskip] at h
    split at h
    · cases h
    · split at h
      · next kind houtcome =>
        cases h
        exact .inr (Lexeme.readsBack (isBlank_of_skipTrivia hskip) houtcome)
      · cases h

theorem skipTrivia_of_readsBack (h : t.ReadsBack) (hrest : EndsToken rest) (pos : Pos) :
    skipTrivia false pos (t.text.toList ++ rest) = (pos, t.text.toList ++ rest) := by
  obtain ⟨c, cs, htext, hblank, hslash, -⟩ := h.read
  have hcomment : ¬(c = '/' && (cs ++ rest).head? = some '/') = true := by
    simp only [Bool.and_eq_true, decide_eq_true_eq, not_and]
    intro hc hhead
    rw [hslash hc] at hhead
    exact absurd (hrest '/' hhead) (by decide)
  rw [htext, cons_append, skipTrivia, if_neg (by simp [hblank]), if_neg hcomment]

/-- A token with a gap after it is read back. -/
theorem next_of_readsBack (h : t.ReadsBack) (hrest : EndsToken rest)
    (hskip : skipTrivia false pos chars = (pos', t.text.toList ++ rest)) :
    next ⟨pos, chars, none⟩ = (.ok ⟨t.kind, t.text, ⟨pos', pos'.after t.text.toList⟩⟩,
    ⟨pos'.after t.text.toList, rest, none⟩) := by
  obtain ⟨c, cs, htext, -, -, hread⟩ := h.read
  have hlexeme := hread rest hrest
  have hspelled : Lexeme.text ⟨.ok t.kind, t.text.toList, rest⟩ t.kind = t.text := by
    rw [← String.toList_inj]
    exact Lexeme.ReadsBack.toList_text (l := ⟨.ok t.kind, t.text.toList, rest⟩) h
  rw [htext, cons_append] at hskip
  unfold next
  simp only [hskip, hlexeme]
  rw [hspelled]
  split
  · contradiction
  · rfl

theorem upTo_of_readsBack (h : t.ReadsBack) (hrest : EndsToken rest)
    (hskip : skipTrivia false pos chars = (pos', t.text.toList ++ rest)) (n : Nat) :
    upTo (n + 1) ⟨pos, chars, none⟩ = .ok ⟨t.kind, t.text, ⟨pos', pos'.after t.text.toList⟩⟩ ::
      upTo n ⟨pos'.after t.text.toList, rest, none⟩ := by
  have hnext := next_of_readsBack h hrest hskip
  have hlast : isLast (next ⟨pos, chars, none⟩).1 = false := by
    rw [hnext]
    simpa [isLast] using h.kind_ne_eof
  rw [upTo, hlast, if_neg (by simp), hnext]

/-- Tokens written with blanks before them are read back one after the other, up to the end of the file. -/
theorem upTo_spaced (hts : ∀ t ∈ ts, t.ReadsBack) {n : Nat} (hn : ts.length < n) (pos : Pos) :
    ∃ ts' : List Token, upTo n ⟨pos, Token.spaced ts, none⟩ = ts'.map .ok ∧
      ts'.map (fun t => (t.kind, t.text)) = ts.map (fun t => (t.kind, t.text)) ++ [(.eof, "")] := by
  induction ts generalizing n pos with
  | nil =>
    obtain ⟨n, rfl⟩ : ∃ m, n = m + 1 := ⟨n - 1, by omega⟩
    exact ⟨[⟨.eof, "", ⟨pos, pos⟩⟩], rfl, rfl⟩
  | cons t ts ih =>
    obtain ⟨n, rfl⟩ : ∃ m, n = m + 1 := ⟨n - 1, by omega⟩
    obtain ⟨ht, hts⟩ := forall_mem_cons.1 hts
    have hends := Token.endsToken_spaced ts
    have hskip : skipTrivia false pos (Token.spaced (t :: ts)) = (pos.advance ' ', t.text.toList ++ Token.spaced ts) :=
      skipTrivia_of_readsBack ht hends _
    have hlength : ts.length < n := by
      rw [length_cons] at hn
      omega
    obtain ⟨ts', hrest, hsame⟩ := ih hts hlength ((pos.advance ' ').after t.text.toList)
    let span : Span := ⟨pos.advance ' ', (pos.advance ' ').after t.text.toList⟩
    refine ⟨⟨t.kind, t.text, span⟩ :: ts', ?_, congrArg ((t.kind, t.text) :: ·) hsame⟩
    rw [upTo_of_readsBack ht hends hskip, hrest]
    rfl

/-- What is read before the last token is no end of the file. -/
theorem readsBack_of_mem_upTo {n : Nat} {last : Token} (h : s.upTo n = (ts ++ [last]).map .ok)
    (hlast : last.kind = .eof) : last.text = "" ∧ ∀ t ∈ ts, t.ReadsBack := by
  induction n generalizing s ts with
  | zero => simp [upTo] at h
  | succ _ ih =>
    rw [upTo] at h
    cases ts with
    | nil =>
      have hnext : s.next.1 = .ok last := by
        split at h
        · exact singleton_inj.1 h
        · exact (cons.inj h).1
      rcases readsBack_of_next hnext with ⟨-, htext⟩ | hread
      · exact ⟨htext, nofun⟩
      · exact absurd hlast hread.kind_ne_eof
    | cons =>
      split at h
      · simp at h
      · next hmore =>
        obtain ⟨hnext, hrest⟩ := cons.inj h
        obtain ⟨htext, hread⟩ := ih hrest
        refine ⟨htext, forall_mem_cons.2 ⟨?_, hread⟩⟩
        rcases readsBack_of_next hnext with ⟨heof, -⟩ | ht
        · simp [hnext, isLast, heof] at hmore
        · exact ht

end Scanner

/-- The texts of tokens with single blanks between them. -/
def Source.respaced (ts : List Token) : Source :=
  .ofText (" ".intercalate (ts.map (·.text)))

/-- The tokens of a text are read back when they are written again with single blanks between them. -/
theorem Source.tokens_respaced {source : Source} {last : Token}
    (h : source.tokens = (ts ++ [last]).map .ok) (hlast : last.kind = .eof) :
    ∃ ts' : List Token, (respaced ts).tokens = ts'.map .ok ∧
      ts'.map (fun t => (t.kind, t.text)) = (ts ++ [last]).map (fun t => (t.kind, t.text)) := by
  obtain ⟨htext, hread⟩ := Scanner.readsBack_of_mem_upTo h hlast
  cases ts with
  | nil => exact ⟨[⟨.eof, "", ⟨.origin, .origin⟩⟩], rfl, by simp [hlast, htext]⟩
  | cons t ts =>
    have hchars : (respaced (t :: ts)).chars = t.text.toList ++ Token.spaced ts := Token.intercalate_texts t ts
    have hstart : Scanner.start (respaced (t :: ts)) = ⟨.origin, t.text.toList ++ Token.spaced ts, none⟩ := by
      rw [← hchars]
      rfl
    obtain ⟨ht, hts⟩ := forall_mem_cons.1 hread
    have hends := Token.endsToken_spaced ts
    have hskip := Scanner.skipTrivia_of_readsBack ht hends .origin
    -- There is a step for every token: each has a character.
    have hsteps : ts.length < (respaced (t :: ts)).chars.length := by
      have hlength := Token.length_le_spaced ts
      obtain ⟨c, cs, hcs, -⟩ := ht.read
      rw [hchars, hcs, length_append, length_cons]
      omega
    obtain ⟨ts', hrest, hsame⟩ := Scanner.upTo_spaced hts hsteps (Pos.origin.after t.text.toList)
    refine ⟨⟨t.kind, t.text, ⟨.origin, Pos.origin.after t.text.toList⟩⟩ :: ts', ?_, ?_⟩
    · rw [tokens, hstart, Scanner.upTo_of_readsBack ht hends hskip, hrest]
      rfl
    · rw [map_cons, hsame]
      simp [hlast, htext]

end LocLang
