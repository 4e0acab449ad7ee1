import LocLang.Proofs.Parser.Integers
import LocLang.Proofs.Parser.Trees
import LocLang.Proofs.Tree.Moved

namespace LocLang

open Grammar List Lexeme

/-- Whether a name is an identifier: some scanner reads it as one. -/
def IsIdentifier (name : String) : Prop :=
  ∃ (s : Scanner) (t : Token), s.next.1 = .ok t ∧ t.kind = .ident ∧ t.text = name

theorem IsIdentifier.spelled {name : String} (h : IsIdentifier name) :
    ∃ c cs, name.toList = c :: cs ∧ Text.isBlank c = false ∧ startsWord c ∧ ¬c.isDigit ∧
    (∀ d ∈ c :: cs, continuesWord d) ∧ TokenKind.ofWord name = .ident := by
  obtain ⟨s, t, hnext, hkind, rfl⟩ := h
  have hreads : ReadsBack t.kind t.text.toList := by
    rcases Scanner.readsBack_of_next hnext with ⟨heof, -⟩ | hreads
    · cases heof.symm.trans hkind
    · exact hreads
  obtain ⟨c, cs, htext, hblank, -, hread⟩ := hreads.read
  have hlexeme := hread [] (by simp [EndsToken])
  rw [append_nil, htext, hkind, ofChars] at hlexeme
  split at hlexeme
  · exact absurd (congrArg outcome hlexeme) (number_outcome_ne_ident _)
  · next hdigit =>
    split at hlexeme
    · next hstarts =>
      have hraw : (c :: cs).takeWhile continuesWord = c :: cs := congrArg raw hlexeme
      have hword : TokenKind.ofWord (.ofList ((c :: cs).takeWhile continuesWord)) = .ident :=
        Except.ok.inj (congrArg outcome hlexeme)
      have hall := all_takeWhile (p := continuesWord) (l := c :: cs)
      rw [hraw, ← htext, String.ofList_toList] at hword
      rw [hraw] at hall
      exact ⟨c, cs, htext, hblank, hstarts, hdigit, all_eq_true.1 hall, hword⟩
    · exact absurd (congrArg outcome hlexeme) (symbol_outcome_ne_ident _ _)

namespace Scanner

variable {pos : Pos} {as bs rest : List Char} {ts us : List Token}

/-- Whether a text is read as the given tokens if the given rest comes after it. -/
structure Cuts (pos : Pos) (text rest : List Char) (ts : List Token) : Prop where
  length_le : ts.length ≤ text.length
  upTo_eq : ∀ n, upTo (ts.length + n) ⟨pos, text ++ rest, none⟩ = ts.map .ok ++ upTo n ⟨pos.after text, rest, none⟩

theorem Cuts.append (h : Cuts pos as (bs ++ rest) ts) (h' : Cuts (pos.after as) bs rest us) :
    Cuts pos (as ++ bs) rest (ts ++ us) where
  length_le := by
    rw [length_append, length_append]
    exact Nat.add_le_add h.length_le h'.length_le
  upTo_eq n := by
    rw [length_append, Nat.add_assoc, append_assoc, h.upTo_eq, h'.upTo_eq, map_append, append_assoc, Pos.after_append]

/-- A blank before a token is skipped. -/
theorem Cuts.blank (h : Cuts (pos.advance ' ') as rest ts) (hne : ts ≠ []) : Cuts pos (' ' :: as) rest ts where
  length_le := Nat.le_succ_of_le h.length_le
  upTo_eq n := by
    obtain ⟨t, ts, rfl⟩ := exists_cons_of_ne_nil hne
    have hskip : next ⟨pos, ' ' :: (as ++ rest), none⟩ = next ⟨pos.advance ' ', as ++ rest, none⟩ := rfl
    have hupTo := h.upTo_eq n
    rw [length_cons, Nat.add_right_comm, upTo] at hupTo ⊢
    rwa [cons_append, hskip]

/-- A lexeme at the front of a text is a token. -/
theorem Cuts.lexeme {kind : TokenKind} {c : Char} {cs : List Char} (hblank : Text.isBlank c = false) (hslash : c ≠ '/')
    (hplain : IsPlain kind) (h : ofChars c (cs ++ rest) = ⟨.ok kind, c :: cs, rest⟩) :
    Cuts pos (c :: cs) rest [⟨kind, .ofList (c :: cs), ⟨pos, pos.after (c :: cs)⟩⟩] where
  length_le := by simp
  upTo_eq n := by
    have hskip : skipTrivia false pos (c :: (cs ++ rest)) = (pos, c :: (cs ++ rest)) := by
      rw [skipTrivia, if_neg (by simp [hblank]), if_neg (by simp [hslash])]
    have hnext : next ⟨pos, c :: (cs ++ rest), none⟩ =
        (.ok ⟨kind, .ofList (c :: cs), ⟨pos, pos.after (c :: cs)⟩⟩, ⟨pos.after (c :: cs), rest, none⟩) := by
      unfold next
      simp only [hskip, h]
      split
      · contradiction
      · simp [text, hplain.1]
    rw [length_singleton, Nat.add_comm, cons_append, upTo, hnext, if_neg (by simp [isLast, hplain.2])]
    rfl

/-- A name before a character that does not go on a word is a token. -/
theorem exists_cuts_name {name : String} (h : IsIdentifier name) (pos : Pos) (rest : List Char)
    (hrest : StopsAt continuesWord rest) : ∃ t, t.kind = .ident ∧ t.text = name ∧ Cuts pos name.toList rest [t] := by
  obtain ⟨c, cs, hname, hblank, hstarts, hdigit, hall, hword⟩ := h.spelled
  have hlexeme : ofChars c (cs ++ rest) = ⟨.ok .ident, c :: cs, rest⟩ := by
    rw [ofChars, if_neg hdigit, if_pos hstarts, ← cons_append, word, takeWhile_append_of_stopsAt hall hrest,
      dropWhile_append_of_stopsAt hall hrest, ← hname, String.ofList_toList, hword]
  have hslash : c ≠ '/' := by
    rintro rfl
    exact absurd hstarts (by decide)
  exact ⟨_, rfl, String.ofList_toList, hname ▸ Cuts.lexeme hblank hslash (by decide) hlexeme⟩

/-- A symbol is a token of its own before a character with which it makes no longer one. -/
theorem exists_cuts_symbol (c : Char) (kind : TokenKind) (hc : (c, kind) ∈ [('<', .lt), ('>', .gt), (',', .comma)])
    (pos : Pos) (rest : List Char) (hrest : StopsAt (· = '=') rest) : ∃ t, t.kind = kind ∧ Cuts pos [c] rest [t] := by
  have hall : TokenKind.singles.lookup c = some kind ∧ Text.isBlank c = false ∧ c ≠ '/' ∧ c.isDigit = false ∧
      startsWord c = false ∧ IsPlain kind := by
    simp only [mem_cons, Prod.mk.injEq, not_mem_nil, or_false] at hc
    rcases hc with ⟨rfl, rfl⟩ | ⟨rfl, rfl⟩ | ⟨rfl, rfl⟩ <;> decide
  obtain ⟨hsingle, hblank, hslash, hdigit, hword, hplain⟩ := hall
  refine ⟨_, rfl, Cuts.lexeme hblank hslash hplain ?_⟩
  rw [ofChars, if_neg (by simp [hdigit]), if_neg (by simp [hword]), nil_append, symbol, hsingle]
  cases rest with
  | nil => rfl
  | cons d =>
    have hd : d ≠ '=' := by simpa using hrest d rfl
    have hpair : TokenKind.pairs.lookup (c, d) = none := by
      simp only [mem_cons, Prod.mk.injEq, not_mem_nil, or_false] at hc
      rcases hc with ⟨rfl, -⟩ | ⟨rfl, -⟩ | ⟨rfl, -⟩ <;> simp [lookup_eq_none_iff, TokenKind.pairs, hd]
    simp only [hpair]

end Scanner

namespace TypeLabel

open Scanner

/-- Whether all names in a label are identifiers. -/
inductive Named : TypeLabel → Prop
  | mk {span : Span} {name : String} {args : List TypeLabel} (hname : IsIdentifier name)
      (hargs : ∀ arg ∈ args, Named arg) : Named (.mk span name args)

def unplaced (label : TypeLabel) : TypeLabel :=
  label.moved fun _ => .origin

/-- What may not come after a label: a character that would go on its last name or bracket. -/
def continues (c : Char) : Bool :=
  continuesWord c || c = '='

/-- Whether the text of a label derives the label, up to its places, wherever it stands. -/
def ReadsBack (label : TypeLabel) : Prop :=
  ∀ pos rest, StopsAt continues rest → ∃ ts label', TypePhrase ts label' ∧ label'.unplaced = label.unplaced ∧
    Cuts pos label.text.toList rest ts

theorem unplaced_mk (span : Span) (name : String) (args : List TypeLabel) :
    (mk span name args).unplaced = .mk ⟨.origin, .origin⟩ name (args.map unplaced) := by
  rw [unplaced, moved, movedList_eq_map]
  rfl

theorem Named.stopsAt_text {label : TypeLabel} (h : label.Named) (rest : List Char) :
    StopsAt (· = '=') (label.text.toList ++ rest) := by
  cases h with
  | @mk span name args hname =>
    obtain ⟨c, cs, hcs, -, hstarts, -⟩ := hname.spelled
    have htext : ∃ ds, (TypeLabel.mk span name args).text.toList = c :: ds := by
      cases args with
      | nil => exact ⟨cs, hcs⟩
      | cons => exact ⟨_, by simp only [text, String.toList_append, hcs, cons_append, append_assoc]; rfl⟩
    obtain ⟨ds, hds⟩ := htext
    intro d hd
    rw [hds] at hd
    obtain rfl : c = d := by simpa using hd
    refine decide_eq_false ?_
    rintro rfl
    exact absurd hstarts (by decide)

/-- Labels with commas between them are read back one after the other. -/
theorem exists_cuts_args {arg : TypeLabel} {args : List TypeLabel} (hargs : ∀ label ∈ arg :: args, label.ReadsBack)
    (pos : Pos) (rest : List Char) (hrest : StopsAt continues rest) : ∃ ts labels, Separated TypePhrase ts labels ∧
      labels.map unplaced = (arg :: args).map unplaced ∧
        Cuts pos (arg.text.toList ++ (argsText args).toList) rest ts := by
  induction args generalizing arg pos with
  | nil =>
    have harg := forall_mem_singleton.1 hargs
    obtain ⟨ts, label, hphrase, hsame, hcuts⟩ := harg pos rest hrest
    exact ⟨ts, [label], .one hphrase, by simp [hsame], by simpa [argsText] using hcuts⟩
  | cons next args ih =>
    obtain ⟨harg, hargs⟩ := forall_mem_cons.1 hargs
    have htext : (argsText (next :: args)).toList = [','] ++ ' ' :: (next.text.toList ++ (argsText args).toList) := by
      simp [argsText, String.toList_append]
    obtain ⟨ts, label, hphrase, hsame, hcuts⟩ := harg pos ((argsText (next :: args)).toList ++ rest) (by
      rw [htext]
      rintro c ⟨⟩
      decide)
    obtain ⟨us, labels, hphrases, hsames, hrests⟩ := ih hargs (((pos.after arg.text.toList).advance ',').advance ' ')
    obtain ⟨comma, hcomma, hcommas⟩ := exists_cuts_symbol ',' .comma (by simp) (pos.after arg.text.toList)
      (' ' :: (next.text.toList ++ (argsText args).toList) ++ rest) (by rintro c ⟨⟩; decide)
    have hne : us ≠ [] := by
      cases hphrases with
      | one h => cases h <;> simp
      | more => simp
    rw [htext] at hcuts ⊢
    refine ⟨ts ++ comma :: us, label :: labels, .more hphrase hcomma hphrases, by simp [hsame, hsames], ?_⟩
    exact hcuts.append (hcommas.append (hrests.blank hne))

/-- A label whose names are identifiers is read back, by induction on its tree. -/
theorem Named.readsBack {label : TypeLabel} (h : label.Named) : label.ReadsBack := by
  induction h with
  | @mk span name args hname hargs ih =>
    intro pos rest hrest
    cases args with
    | nil =>
      obtain ⟨t, hkind, htext, hcuts⟩ := exists_cuts_name hname pos rest fun c hc =>
          (Bool.or_eq_false_iff.1 (hrest c hc)).1
      exact ⟨[t], _, .plain hkind, by simp [unplaced_mk, htext], hcuts⟩
    | cons arg args =>
      let inner := arg.text.toList ++ (argsText args).toList
      have htext : (TypeLabel.mk span name (arg :: args)).text.toList = name.toList ++ (['<'] ++ (inner ++ ['>'])) := by
        simp [text, String.toList_append, inner]
      obtain ⟨t, hkind, hname, hcuts⟩ := exists_cuts_name hname pos (['<'] ++ (inner ++ ['>']) ++ rest)
          (by rintro c ⟨⟩; decide)
      obtain ⟨left, hleft, hlefts⟩ := exists_cuts_symbol '<' .lt (by simp) (pos.after name.toList)
        (inner ++ ['>'] ++ rest) (by simpa only [inner, append_assoc] using (hargs arg mem_cons_self).stopsAt_text _)
      obtain ⟨ts, labels, hphrases, hsame, hrests⟩ := exists_cuts_args ih ((pos.after name.toList).advance '<')
        (['>'] ++ rest) (by rintro c ⟨⟩; decide)
      obtain ⟨right, hright, hrights⟩ := exists_cuts_symbol '>' .gt (by simp)
        (((pos.after name.toList).advance '<').after inner) rest fun c hc => (Bool.or_eq_false_iff.1 (hrest c hc)).2
      refine ⟨t :: left :: ts ++ [right], _, .generic hkind hleft hphrases hright, ?_, ?_⟩
      · rw [unplaced_mk, unplaced_mk, hname, hsame]
      · rw [htext]
        exact hcuts.append (hlefts.append (hrests.append hrights))

end TypeLabel

namespace Source

def typeLabel (source : Source) : Except SourceError (TypeLabel × TokenKind) :=
  source.readBy Parser.typeLabel

/-- A type label is read back from its text: whatever its arguments, the whole text is read, and as the same label up to
    places. -/
theorem typeLabel_text {label : TypeLabel} (hnames : label.Named) :
    ∃ label', (ofText label.text).typeLabel = .ok (label', .eof) ∧ label'.unplaced = label.unplaced := by
  obtain ⟨ts, label', hphrase, hsame, hcuts⟩ := hnames.readsBack .origin [] (by rintro c ⟨⟩)
  obtain ⟨n, hn⟩ := Nat.exists_eq_add_of_le hcuts.length_le
  let stop := Pos.origin.after label.text.toList
  have htokens : (ofText label.text).tokens = ts.map .ok ++ [.ok ⟨.eof, "", ⟨stop, stop⟩⟩] := by
    have hupTo := hcuts.upTo_eq (n + 1)
    rw [append_nil, ← Nat.add_assoc, ← hn] at hupTo
    exact hupTo
  obtain ⟨c, c', hstart, htakes, heof⟩ := exists_takes htokens
  have hgives := (Parser.typeLabel_accepts c.budget).gives hphrase htakes (by simp [heof]) (Nat.le_refl _)
  refine ⟨label', ?_, hsame⟩
  rw [typeLabel, readBy_eq_ok hstart hgives, heof]

/-- A label of two names and two closing brackets in a row. -/
def pairsOfList : TypeLabel :=
  let span : Span := ⟨.origin, .origin⟩
  .mk span "fnord" [.mk span "_1" [], .mk span "fnord" [.mk span "_1" []]]

theorem typeLabel_text_pairsOfList : pairsOfList.Named ∧ pairsOfList.text = "fnord<_1, fnord<_1>>" ∧
    ∃ label', (ofText pairsOfList.text).typeLabel = .ok (label', .eof) ∧ label'.unplaced = pairsOfList.unplaced := by
  have hlong : IsIdentifier "fnord" := ⟨.start (ofText "fnord"), ⟨.ident, "fnord", ⟨.origin, ⟨0, 5⟩⟩⟩, rfl, rfl, rfl⟩
  have hshort : IsIdentifier "_1" := ⟨.start (ofText "_1"), ⟨.ident, "_1", ⟨.origin, ⟨0, 2⟩⟩⟩, rfl, rfl, rfl⟩
  have hnamed : pairsOfList.Named := .mk hlong (by simp [TypeLabel.Named.mk hshort, TypeLabel.Named.mk hlong])
  exact ⟨hnamed, by rfl, typeLabel_text hnamed⟩

end Source

end LocLang
