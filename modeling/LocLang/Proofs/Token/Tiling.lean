import LocLang.Proofs.Token.Scanning

namespace LocLang

open List

/-- The characters of a text from the one numbered `start` up to the one numbered `stop`, which is not among them. -/
structure Stretch where
  start : Nat
  stop : Nat

namespace Stretch

def of (r : Stretch) (chars : List Char) : List Char :=
  (chars.take r.stop).drop r.start

/-- From the position after all characters before the stretch to that after its last one. -/
def span (r : Stretch) (chars : List Char) : Span :=
  ⟨Pos.origin.after (chars.take r.start), Pos.origin.after (chars.take r.stop)⟩

/-- Where the last of some stretches ends, or `k` if there are none. -/
def lastStop : Nat → List Stretch → Nat
  | k, [] => k
  | _, r :: ranges => lastStop r.stop ranges

end Stretch

/-- Whether results are read from stretches of a text one after the other, from the character numbered `k` on, and what
    lies before each of them is blanks and comments. -/
inductive Tiles (chars : List Char) : Nat → List Stretch → List (Except SourceError Token) → Prop
  | nil {k : Nat} : Tiles chars k [] []
  | cons {k : Nat} {r : Stretch} {ranges : List Stretch} {result : Except SourceError Token}
      {results : List (Except SourceError Token)} (hk : k ≤ r.start) (hrange : r.start ≤ r.stop)
      (hstop : r.stop ≤ chars.length) (hgap : Trivia ((chars.take r.start).drop k) (chars.drop r.start))
      (hlexed : Lexed none (r.of chars) (chars.drop r.stop) (r.span chars) result)
      (hrest : Tiles chars r.stop ranges results) : Tiles chars k (r :: ranges) (result :: results)

namespace Scanner

/-- Whether a scanner has read the characters `before` of a text and stands after them. -/
structure Past (chars before : List Char) (s : Scanner) : Prop where
  chars_eq : chars = before ++ s.ahead
  pos_eq : s.pos = Pos.origin.after before
  failure_eq : s.failure = none

variable {chars before : List Char} {s : Scanner}

/-- One step reads one stretch of the text. -/
theorem Past.next (h : s.Past chars before) : ∃ (r : Stretch) (before' : List Char), before.length ≤ r.start ∧
    r.start ≤ r.stop ∧ r.stop ≤ chars.length ∧ Trivia ((chars.take r.start).drop before.length) (chars.drop r.start) ∧
    Lexed none (r.of chars) (chars.drop r.stop) (r.span chars) s.next.1 ∧ before'.length = r.stop ∧
    s.next.2.Past chars before' := by
  obtain ⟨gap, raw, rest, hreads⟩ := s.exists_reads
  have hstart : chars = (before ++ gap) ++ (raw ++ rest) := by rw [h.chars_eq, hreads.ahead_eq, append_assoc]
  have hstop : chars = (before ++ gap ++ raw) ++ rest := by rw [hstart, append_assoc (before ++ gap)]
  have htakeStart : chars.take (before ++ gap).length = before ++ gap := by rw [hstart, take_left]
  have htakeStop : chars.take (before ++ gap ++ raw).length = before ++ gap ++ raw := by rw [hstop, take_left]
  have hlexed := hreads.lexed
  rw [h.failure_eq, h.pos_eq, ← Pos.after_append, ← Pos.after_append] at hlexed
  refine ⟨⟨(before ++ gap).length, (before ++ gap ++ raw).length⟩,
    before ++ gap ++ raw, by simp, by simp, by simp [hstop], ?_, ?_, rfl, ?_⟩
  · have hdrop : chars.drop (before ++ gap).length = raw ++ rest := by rw [hstart, drop_left]
    rw [htakeStart, drop_left, hdrop]
    exact hreads.trivia
  · have hdrop : chars.drop (before ++ gap ++ raw).length = rest := by rw [hstop, drop_left]
    rw [Stretch.of, Stretch.span, htakeStart, htakeStop, drop_left, hdrop]
    exact hlexed
  · rw [hreads.next_eq]
    exact ⟨hstop, by rw [h.pos_eq, Pos.after_append, Pos.after_append], h.failure_eq⟩

/-- A run reads one stretch of the text for each step, and a longer run goes on where it ended. -/
theorem Past.steps (h : s.Past chars before) (n : Nat) :
    ∃ (ranges : List Stretch) (before' : List Char) (s' : Scanner), Tiles chars before.length ranges (s.steps n) ∧
    before'.length = Stretch.lastStop before.length ranges ∧ s'.Past chars before' ∧ ∀ m,
    s.steps (n + m) = s.steps n ++ s'.steps m := by
  induction n generalizing s before with
  | zero => exact ⟨[], before, s, .nil, rfl, h, fun m => by rw [Nat.zero_add]; rfl⟩
  | succ _ ih =>
    obtain ⟨r, before1, hk, hrange, hstop, hgap, hlexed, hlength, hnext⟩ := h.next
    obtain ⟨ranges, before', s', htiles, hlast, hpast, hmore⟩ := ih hnext
    rw [hlength] at htiles hlast
    refine ⟨r :: ranges, before', s', .cons hk hrange hstop hgap hlexed htiles, hlast, hpast, fun m => ?_⟩
    rw [Nat.succ_add, Scanner.steps, hmore, Scanner.steps, cons_append]

end Scanner

theorem skipTrivia_true {body : List Char} (hbody : '\n' ∉ body) (pos : Pos) (cs : List Char) :
    skipTrivia true pos (body ++ cs) = skipTrivia true (pos.after body) cs := by
  induction body generalizing pos with
  | nil => rfl
  | cons _ _ ih =>
    obtain ⟨hc, hbody⟩ := ne_and_not_mem_of_not_mem_cons hbody
    rw [cons_append, skipTrivia, decide_eq_true hc.symm, ih hbody, Pos.after_cons]

theorem skipTrivia_slashes (pos : Pos) (cs : List Char) :
    skipTrivia false pos ('/' :: '/' :: cs) = skipTrivia true (pos.after ['/', '/']) cs := by
  rfl

/-- Blanks and comments before the end of a text are skipped. -/
theorem Trivia.skipTrivia_eq {gap rest : List Char} (h : Trivia gap rest) (hrest : rest = []) (pos : Pos) :
    skipTrivia false pos gap = (pos.after gap, []) := by
  induction h generalizing pos with
  | nil => rfl
  | blank hblank _ ih => rw [skipTrivia, if_pos hblank, ih hrest, Pos.after_cons]
  | comment hbody _ ih =>
    rw [skipTrivia_slashes, skipTrivia_true hbody, skipTrivia]
    simp only [ne_eq, not_true_eq_false, decide_false]
    rw [ih hrest]
    simp
  | @lastComment body hbody =>
    rw [skipTrivia_slashes, ← append_nil body, skipTrivia_true hbody, skipTrivia]
    simp

namespace Scanner

variable {chars before : List Char} {s : Scanner}

/-- Where nothing but blanks and comments is left, every step gives the end of the file. -/
theorem Past.steps_eq_replicate (h : s.Past chars before) (hgap : Trivia s.ahead []) (m : Nat) :
    s.steps m = replicate m (.ok ⟨.eof, "", ⟨Pos.origin.after chars, Pos.origin.after chars⟩⟩) := by
  induction m generalizing s before with
  | zero => rfl
  | succ _ ih =>
    have hend : s.pos.after s.ahead = Pos.origin.after chars := by rw [h.pos_eq, ← Pos.after_append, ← h.chars_eq]
    have hnext : s.next = (.ok ⟨.eof, "", ⟨Pos.origin.after chars, Pos.origin.after chars⟩⟩,
        ⟨Pos.origin.after chars, [], none⟩) := by
      rw [Scanner.next, hgap.skipTrivia_eq rfl, hend, h.failure_eq]
    have hpast : s.next.2.Past chars chars := by
      rw [hnext]
      exact ⟨(append_nil chars).symm, rfl, rfl⟩
    rw [Scanner.steps, ih hpast (by rw [hnext]; exact .nil), hnext, replicate_succ]

/-- What a scanner gives tiles the text. Once only blanks and comments are left, it gives the end of the file at the end
    of the text for ever. -/
theorem steps_tile (chars : List Char) (n : Nat) : ∃ ranges, Tiles chars 0 ranges ((start ⟨chars, none⟩).steps n) ∧
    (Trivia (chars.drop (Stretch.lastStop 0 ranges)) [] → ∀ m, (start ⟨chars, none⟩).steps (n + m) =
      (start ⟨chars, none⟩).steps n ++
        replicate m (.ok ⟨.eof, "", ⟨Pos.origin.after chars, Pos.origin.after chars⟩⟩)) := by
  have hstart : (start ⟨chars, none⟩).Past chars [] := ⟨rfl, rfl, rfl⟩
  obtain ⟨ranges, before, s, htiles, hlength, hpast, hmore⟩ := hstart.steps n
  refine ⟨ranges, htiles, fun hgap m => ?_⟩
  have hahead : chars.drop (Stretch.lastStop 0 ranges) = s.ahead := by
    have hdrop : (before ++ s.ahead).drop before.length = s.ahead := drop_left
    rw [← hpast.chars_eq, hlength] at hdrop
    exact hdrop
  rw [hmore, hpast.steps_eq_replicate (hahead ▸ hgap)]

end Scanner

end LocLang
