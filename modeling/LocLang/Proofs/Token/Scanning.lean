import LocLang.Proofs.Token.Spelling

namespace LocLang

open List

variable {cs : List Char}

/-- Blanks and comments before the text `rest`. A comment goes from two slashes through the end of its line, or to the
    end of the text. -/
inductive Trivia : List Char → List Char → Prop
  | nil {rest : List Char} : Trivia [] rest
  | blank {c : Char} {gap rest : List Char} (hblank : Text.isBlank c) (hgap : Trivia gap rest) : Trivia (c :: gap) rest
  | comment {body gap rest : List Char} (hbody : '\n' ∉ body) (hgap : Trivia gap rest) :
      Trivia ('/' :: '/' :: (body ++ '\n' :: gap)) rest
  | lastComment {body : List Char} (hbody : '\n' ∉ body) : Trivia ('/' :: '/' :: body) []

/-- What a comment that has begun goes on with, and the blanks and comments after it. -/
inductive Commented : List Char → List Char → Prop
  | line {body gap rest : List Char} (hbody : '\n' ∉ body) (hgap : Trivia gap rest) :
      Commented (body ++ '\n' :: gap) rest
  | last {body : List Char} (hbody : '\n' ∉ body) : Commented body []

theorem Commented.cons {c : Char} {gap rest : List Char} (hc : c ≠ '\n') (h : Commented gap rest) :
    Commented (c :: gap) rest := by
  have hcons : ∀ {body : List Char}, '\n' ∉ body → '\n' ∉ c :: body := fun hbody =>
      not_mem_cons_of_ne_of_not_mem hc.symm hbody
  cases h with
  | line hbody hgap => exact .line (hcons hbody) hgap
  | last hbody => exact .last (hcons hbody)

/-- A comment that begins with its second slash. -/
theorem Commented.trivia {gap rest : List Char} (h : Commented gap rest) (hslash : gap ++ rest = '/' :: cs) :
    Trivia ('/' :: gap) rest := by
  cases h with
  | @line body _ _ hbody hgap =>
    cases body with
    | nil => simp at hslash
    | cons c =>
      obtain rfl : c = '/' := by simpa using (cons.inj hslash).1
      exact .comment (not_mem_of_not_mem_cons hbody) hgap
  | last hbody =>
    rw [append_nil] at hslash
    subst hslash
    exact .lastComment (not_mem_of_not_mem_cons hbody)

/-- Skipping takes blanks and comments off the front and nothing else. -/
theorem exists_skipTrivia_eq (comment : Bool) (pos : Pos) (chars : List Char) : ∃ gap rest, chars = gap ++ rest ∧
    skipTrivia comment pos chars = (pos.after gap, rest) ∧ if comment then Commented gap rest else Trivia gap rest := by
  fun_induction skipTrivia comment pos chars with
  | case1 comment =>
    refine ⟨[], [], rfl, rfl, ?_⟩
    cases comment with
    | true => exact .last not_mem_nil
    | false => exact .nil
  | case2 _ c _ ih =>
    obtain ⟨gap, rest, rfl, hskip, hgap⟩ := ih
    refine ⟨c :: gap, rest, rfl, hskip, ?_⟩
    by_cases hc : c = '\n'
    · subst hc
      have hline : Commented ([] ++ '\n' :: gap) rest := .line not_mem_nil hgap
      exact hline
    · rw [if_pos (by simpa using hc)] at hgap
      exact hgap.cons hc
  | case3 _ c _ hblank ih =>
    obtain ⟨gap, rest, rfl, hskip, hgap⟩ := ih
    exact ⟨c :: gap, rest, rfl, hskip, .blank hblank hgap⟩
  | case4 _ c cs _ hslashes ih =>
    obtain ⟨gap, rest, rfl, hskip, hgap⟩ := ih
    obtain ⟨rfl, hsecond⟩ : c = '/' ∧ (gap ++ rest).head? = some '/' := by simpa using hslashes
    obtain ⟨cs, hcs⟩ := head?_eq_some_iff.1 hsecond
    exact ⟨'/' :: gap, rest, rfl, hskip, hgap.trivia hcs⟩
  | case5 _ c cs => exact ⟨[], c :: cs, rfl, rfl, .nil⟩

namespace Lexeme

/-- Whether a lexeme goes on from the characters `raw` with some of the characters `cs` and leaves the others. -/
def GoesOn (l : Lexeme) (raw cs : List Char) : Prop :=
  ∃ more, l.raw = raw ++ more ∧ cs = more ++ l.rest

theorem GoesOn.append {l : Lexeme} {raw ds : List Char} (h : l.GoesOn (raw ++ cs) ds) : l.GoesOn raw (cs ++ ds) := by
  obtain ⟨more, hraw, rfl⟩ := h
  exact ⟨cs ++ more, by rw [hraw, append_assoc], by rw [append_assoc]⟩

theorem GoesOn.trans {l l' : Lexeme} {raw : List Char} (h : l.GoesOn raw cs) (h' : l'.GoesOn l.raw l.rest) :
    l'.GoesOn raw cs := by
  obtain ⟨more, hraw, rfl⟩ := h
  rw [hraw] at h'
  exact h'.append

theorem goesOn_lastDigits (raw cs : List Char) : (lastDigits raw cs).GoesOn raw cs :=
  ⟨cs.takeWhile inDigits, rfl, takeWhile_append_dropWhile.symm⟩

theorem goesOn_exponent (kind : TokenKind) (raw cs : List Char) : (exponent kind raw cs).GoesOn raw cs := by
  fun_cases exponent kind raw cs with
  | case1 | case5 => exact ⟨[], (append_nil _).symm, rfl⟩
  | case2 e _ => exact (goesOn_lastDigits (raw ++ [e]) []).append
  | case3 e _ s cs => exact (goesOn_lastDigits (raw ++ [e, s]) cs).append
  | case4 e _ s cs => exact (goesOn_lastDigits (raw ++ [e]) (s :: cs)).append

theorem goesOn_number (cs : List Char) : (number cs).GoesOn (cs.takeWhile inDigits) (cs.dropWhile inDigits) := by
  fun_cases number cs with
  | case1 whole cs' hrest fraction kind =>
    rw [hrest]
    have hfraction : fraction.GoesOn (whole ++ ['.']) cs' := goesOn_lastDigits _ _
    exact (hfraction.trans (goesOn_exponent kind fraction.raw fraction.rest)).append
  | case2 whole cs' hrest =>
    rw [hrest]
    exact (goesOn_lastDigits (whole ++ ['.']) cs').append
  | case3 whole => exact goesOn_exponent .intLit whole _

theorem goesOn_symbol (c : Char) (cs : List Char) : (symbol c cs).GoesOn [c] cs := by
  fun_cases symbol c cs with
  | case1 => exact ⟨[], rfl, rfl⟩
  | case2 => exact ⟨[], rfl, rfl⟩
  | case3 _ _ d => exact ⟨[d], rfl, rfl⟩
  | case4 => exact ⟨[], rfl, rfl⟩

/-- A lexeme is the first character and some of those after it. -/
theorem goesOn_ofChars (c : Char) (cs : List Char) : (ofChars c cs).GoesOn [c] cs := by
  unfold ofChars
  split
  · next hdigit =>
    have hin : inDigits c := by simp [inDigits, hdigit]
    have hnumber := goesOn_number (c :: cs)
    rw [takeWhile_cons_of_pos hin, dropWhile_cons_of_pos hin] at hnumber
    have hfirst : (number (c :: cs)).GoesOn [c] (cs.takeWhile inDigits ++ cs.dropWhile inDigits) := hnumber.append
    rw [takeWhile_append_dropWhile] at hfirst
    exact hfirst
  · split
    · next hword =>
      have hin : continuesWord c := by simp [continuesWord, hword]
      refine ⟨cs.takeWhile continuesWord, ?_, ?_⟩
      · rw [word, takeWhile_cons_of_pos hin, singleton_append]
      · rw [word, dropWhile_cons_of_pos hin, takeWhile_append_dropWhile]
    · exact goesOn_symbol c cs

end Lexeme

/-- What a scanner gives for the characters `raw` at `span`, with `rest` after them: a token with their text, or without
    the underscores if it is a number; an error at their place; or, where nothing is left, the end of the file or the
    failure to read on. -/
inductive Lexed (failure : Option String) (raw rest : List Char) (span : Span) : Except SourceError Token → Prop
  | token {kind : TokenKind} (hraw : raw ≠ []) (hkind : kind ≠ .eof) :
      Lexed failure raw rest span (.ok ⟨kind, .ofList (if kind.isNumber then raw.filter (· ≠ '_') else raw), span⟩)
  | malformed {cause : SyntaxCause} (hraw : raw ≠ []) : Lexed failure raw rest span (.error (.malformed cause span))
  | eof (hraw : raw = []) (hrest : rest = []) (hfailure : failure = none) :
      Lexed failure raw rest span (.ok ⟨.eof, "", span⟩)
  | unreadable {message : String} (hrest : rest = []) (hfailure : failure = some message) :
      Lexed failure raw rest span (.error (.unreadable message))

/-- One step: after the blanks and comments `gap` the characters `raw` are read, and `rest` is still ahead. -/
structure Scanner.Reads (s : Scanner) (gap raw rest : List Char) : Prop where
  ahead_eq : s.ahead = gap ++ (raw ++ rest)
  trivia : Trivia gap (raw ++ rest)
  lexed : Lexed s.failure raw rest ⟨s.pos.after gap, (s.pos.after gap).after raw⟩ s.next.1
  next_eq : s.next.2 = ⟨(s.pos.after gap).after raw, rest, s.failure⟩

theorem Scanner.exists_reads (s : Scanner) : ∃ gap raw rest, s.Reads gap raw rest := by
  obtain ⟨gap, rest, hahead, hskip, hgap⟩ := exists_skipTrivia_eq false s.pos s.ahead
  cases rest with
  | nil =>
    refine ⟨gap, [], [], hahead, hgap, ?_, ?_⟩
    · rw [next, hskip]
      cases hfailure : s.failure with
      | none => exact .eof rfl rfl rfl
      | some => exact .unreadable rfl rfl
    · rw [next, hskip]
      rfl
  | cons c cs =>
    obtain ⟨more, hraw, hcs⟩ := Lexeme.goesOn_ofChars c cs
    have hne : (Lexeme.ofChars c cs).raw ≠ [] := by simp [hraw]
    have hchars : c :: cs = (Lexeme.ofChars c cs).raw ++ (Lexeme.ofChars c cs).rest := by
      rw [hraw, append_assoc, ← hcs, singleton_append]
    refine ⟨gap, (Lexeme.ofChars c cs).raw, (Lexeme.ofChars c cs).rest, hchars ▸ hahead, hchars ▸ hgap, ?_, ?_⟩
    · rw [next, hskip]
      dsimp only
      split
      · next hrest _ hfailure => exact .unreadable hrest hfailure
      · split
        · next kind houtcome => exact .token hne (Lexeme.readsBack (isBlank_of_skipTrivia hskip) houtcome).kind_ne_eof
        · exact .malformed hne
    · rw [next, hskip]

end LocLang
