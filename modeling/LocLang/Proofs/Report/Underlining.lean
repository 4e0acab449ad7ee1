import LocLang.Proofs.Text.Decoding
import LocLang.Proofs.Token.Tiling
import LocLang.Report.Console

namespace LocLang

open Text.Utf8 Text List ByteLine

variable {result : Except SourceError Token} {k : Nat} {α : Type} {span : Span}

/-- A list is cut at the first of some equal elements. -/
theorem exists_of_count_eq_succ [BEq α] [LawfulBEq α] {a : α} {as : List α} {n : Nat} (h : as.count a = n + 1) :
    ∃ before after, as = before ++ a :: after ∧ a ∉ before ∧ after.count a = n := by
  have hmem : a ∈ as := count_pos_iff.1 (by omega)
  obtain ⟨before, after, rfl, hbefore⟩ := eq_append_cons_of_mem hmem
  rw [count_append, count_cons_self, count_eq_zero.2 hbefore, Nat.zero_add] at h
  exact ⟨before, after, rfl, hbefore, Nat.succ.inj h⟩

theorem flatMap_replace_of_not_mem [DecidableEq α] {a : α} {as : List α} (h : a ∉ as) (bs : List α) :
    as.flatMap (fun b => if b = a then bs else [b]) = as := by
  induction as with
  | nil => rfl
  | cons _ _ ih =>
    obtain ⟨hb, has⟩ := ne_and_not_mem_of_not_mem_cons h
    rw [flatMap_cons, if_neg hb.symm, ih has, singleton_append]

namespace Text

/-- The characters with four spaces for every tab. -/
def expandTabs (cs : List Char) : List Char :=
  cs.flatMap fun c => if c = '\t' then [' ', ' ', ' ', ' '] else [c]

/-- The characters without a carriage return at their end. -/
def trimReturn (cs : List Char) : List Char :=
  if cs.getLast? = some '\r' then cs.dropLast else cs

/-- The characters as an excerpt shows them, without indentation. -/
def unindent (cs : List Char) : List Char :=
  (expandTabs cs).dropWhile (· = ' ')

theorem expandTabs_cons (c : Char) (cs : List Char) :
    expandTabs (c :: cs) = (if c = '\t' then [' ', ' ', ' ', ' '] else [c]) ++ expandTabs cs :=
  flatMap_cons

theorem expandTabs_append (cs ds : List Char) : expandTabs (cs ++ ds) = expandTabs cs ++ expandTabs ds :=
  flatMap_append

theorem expandTabs_of_not_mem {cs : List Char} (h : '\t' ∉ cs) : expandTabs cs = cs :=
  flatMap_replace_of_not_mem h _

theorem dropWhile_append {p : Char → Bool} {ds : List Char} (hne : ds ≠ []) (hds : StopsAt p ds) (cs : List Char) :
    (cs ++ ds).dropWhile p = cs.dropWhile p ++ ds := by
  induction cs with
  | nil =>
    obtain ⟨d, ds, rfl⟩ := exists_cons_of_ne_nil hne
    exact dropWhile_cons_of_neg (by simp [hds d rfl])
  | cons _ _ ih =>
    rw [cons_append, dropWhile_cons, dropWhile_cons]
    split
    · exact ih
    · rfl

theorem trimReturn_append {cs : List Char} (h : cs.getLast? ≠ some '\r') (ds : List Char) :
    trimReturn (cs ++ ds) = cs ++ trimReturn ds := by
  cases ds with
  | nil => simp [trimReturn, h]
  | cons d ds =>
    have hlast : (cs ++ d :: ds).getLast? = (d :: ds).getLast? := by rw [getLast?_append, getLast?_cons, Option.some_or]
    unfold trimReturn
    rw [hlast]
    split
    · rw [dropLast_append_of_ne_nil (cons_ne_nil d ds)]
    · rfl

end Text

namespace ByteLine

open Text.Utf8

theorem decode_trimReturn (line : ByteLine) : decode line.trimReturn = Text.trimReturn (decode line) := by
  by_cases hlast : line.getLast? = some 0x0D
  · obtain ⟨front, rfl⟩ := getLast?_eq_some_iff.1 hlast
    have hdecode : decode (front ++ [0x0D]) = decode front ++ ['\r'] := decode_append (by decide) front []
    rw [trimReturn, if_pos hlast, Text.trimReturn, hdecode, if_pos (by simp), dropLast_concat, dropLast_concat]
  · rw [trimReturn, if_neg hlast, Text.trimReturn, if_neg]
    intro h
    obtain ⟨front, hfront⟩ := getLast?_eq_some_iff.1 h
    obtain ⟨before, after, rfl, -, hafter⟩ := exists_of_decode_eq (b := 0x0D) (by decide) hfront
    simp [eq_nil_of_decode_eq_nil hafter] at hlast

theorem length_shown_le (line : ByteLine) : line.trimReturn.expandTabs.length ≤ 4 * line.length := by
  have hexpand (bs : ByteLine) : bs.expandTabs.length ≤ 4 * bs.length := by
    induction bs with
    | nil => simp [expandTabs]
    | cons b _ ih =>
      rw [expandTabs] at ih ⊢
      rw [flatMap_cons, length_append, length_cons]
      have hfirst : (if b = 0x09 then [0x20, 0x20, 0x20, 0x20] else [b] : ByteLine).length ≤ 4 := by split <;> simp
      omega
  have htrim : line.trimReturn.length ≤ line.length := by
    unfold trimReturn
    split <;> simp
  exact Nat.le_trans (hexpand _) (Nat.mul_le_mul_left 4 htrim)

theorem expandTabs_of_not_mem {line : ByteLine} (h : 0x09 ∉ line) : line.expandTabs = line :=
  flatMap_replace_of_not_mem h _

/-- Tabs can be replaced before or after a line is decoded, by induction on their number. -/
theorem decode_expandTabs (line : ByteLine) : decode line.expandTabs = Text.expandTabs (decode line) := by
  generalize hn : line.count 0x09 = n
  induction n generalizing line with
  | zero =>
    have hline := count_eq_zero.1 hn
    rw [expandTabs_of_not_mem hline, Text.expandTabs_of_not_mem (mt (mem_decode (b := 0x09) (by decide)).1 hline)]
  | succ _ ih =>
    obtain ⟨before, after, rfl, hbefore, hafter⟩ := exists_of_count_eq_succ hn
    have hexpand : expandTabs (before ++ 0x09 :: after) = before ++ 0x20 :: 0x20 :: 0x20 :: 0x20 ::
        expandTabs after := by
      rw [expandTabs, flatMap_append, flatMap_cons, if_pos rfl]
      exact congrArg (· ++ _) (expandTabs_of_not_mem hbefore)
    have htab : '\t' ∉ decode before := mt (mem_decode (b := 0x09) (by decide)).1 hbefore
    rw [hexpand, decode_append (by decide), decode_cons (by decide), decode_cons (by decide), decode_cons (by decide),
      ih after hafter, decode_append (by decide), expandTabs_append, Text.expandTabs_of_not_mem htab]
    rfl

theorem decode_indent (line : ByteLine) : decode (line.drop line.indent) = (decode line).dropWhile (· = ' ') ∧
    line.indent = ((decode line).takeWhile (· = ' ')).length := by
  induction line with
  | nil => simp [indent, decode, decodeAfter]
  | cons b line ih =>
    by_cases hb : b = 0x20
    · subst hb
      have hindent : indent (0x20 :: line) = indent line + 1 := by simp [indent]
      exact ⟨ih.1, congrArg (· + 1) ih.2⟩
    · have hindent : indent (b :: line) = 0 := by simp [indent, hb]
      have hfirst : (first b line).1 ≠ ' ' := by
        intro h
        have hdecode : decode (b :: line) = [] ++ Char.ofNat (0x20 : UInt8).toNat :: decodeAfter
            (first b line).2 line := by
          rw [decode, decodeAfter_cons, h]
          rfl
        obtain ⟨before, after, hline, hbefore, -⟩ := exists_of_decode_eq (by decide) hdecode
        cases before with
        | nil => exact hb (cons.inj hline).1
        | cons => simp [decode, decodeAfter_cons] at hbefore
      rw [hindent, drop_zero, decode, decodeAfter_cons]
      simp [hfirst]

theorem split_append {line : ByteLine} (hline : 0x0A ∉ line) (rest : List UInt8) :
    split (line ++ 0x0A :: rest) = line :: split rest := by
  induction line with
  | nil => simp [split]
  | cons _ _ ih =>
    obtain ⟨hb, hline⟩ := ne_and_not_mem_of_not_mem_cons hline
    rw [cons_append, split, if_neg hb.symm, ih hline]

theorem split_of_not_mem {line : ByteLine} (hline : 0x0A ∉ line) (hne : line ≠ []) : split line = [line] := by
  induction line with
  | nil => exact absurd rfl hne
  | cons _ line ih =>
    obtain ⟨hb, hline⟩ := ne_and_not_mem_of_not_mem_cons hline
    rw [split, if_neg hb.symm]
    cases line with
    | nil => rfl
    | cons a line => rw [ih hline (cons_ne_nil a line)]

/-- The line of a text between two line ends is a line of its bytes. -/
theorem exists_split_eq {bytes : List UInt8} {head line tail : List Char} (h : decode bytes = head ++ (line ++ tail))
    (hhead : ∀ c ∈ head.getLast?, c = '\n') (hline : '\n' ∉ line) (hne : line ≠ [])
    (htail : ∀ c ∈ tail.head?, c = '\n') : ∃ l, (split bytes)[head.count '\n']? = some l ∧ decode l = line := by
  generalize hn : head.count '\n' = n
  induction n generalizing bytes head with
  | zero =>
    -- The first line: nothing is before it, since that would end with a line end.
    have hmem := count_eq_zero.1 hn
    obtain rfl : head = [] := by
      cases hlast : head.getLast? with
      | none => exact getLast?_eq_none_iff.1 hlast
      | some c => exact absurd (hhead c hlast ▸ mem_of_getLast? hlast) hmem
    cases tail with
    | nil =>
      rw [nil_append, append_nil] at h
      have hbytes : 0x0A ∉ bytes := fun hin => hline (h ▸ (mem_decode (b := 0x0A) (by decide)).2 hin)
      refine ⟨bytes, ?_, h⟩
      rw [split_of_not_mem hbytes (by rintro rfl; exact hne h.symm)]
      rfl
    | cons c =>
      obtain rfl := htail c rfl
      obtain ⟨before, after, rfl, hbefore, -⟩ := exists_of_decode_eq (b := 0x0A) (by decide) h
      have hnot : 0x0A ∉ before := fun hin => hline (hbefore ▸ (mem_decode (b := 0x0A) (by decide)).2 hin)
      exact ⟨before, by rw [split_append hnot]; rfl, hbefore⟩
  | succ _ ih =>
    obtain ⟨first, head, rfl, hfirst, hcount⟩ := exists_of_count_eq_succ hn
    rw [append_assoc, cons_append] at h
    obtain ⟨before, after, rfl, hbefore, hafter⟩ := exists_of_decode_eq (b := 0x0A) (by decide) h
    have hnot : 0x0A ∉ before := fun hin => hfirst (hbefore ▸ (mem_decode (b := 0x0A) (by decide)).2 hin)
    have hlast : ∀ c ∈ head.getLast?, c = '\n' := by
      intro c hc
      exact hhead c (by rw [getLast?_append, getLast?_cons, hc]; rfl)
    obtain ⟨l, hl, hdecode⟩ := ih hafter hlast hcount
    exact ⟨l, by rw [split_append hnot, getElem?_cons_succ, hl], hdecode⟩

end ByteLine

/-- Within a line a position counts the characters, a tab as four. -/
theorem Pos.after_of_not_mem {cs : List Char} (h : '\n' ∉ cs) (p : Pos) :
    p.after cs = ⟨p.line, p.col + (Text.expandTabs cs).length⟩ := by
  induction cs generalizing p with
  | nil => simp [Text.expandTabs]
  | cons _ _ ih =>
    obtain ⟨hc, hcs⟩ := ne_and_not_mem_of_not_mem_cons h
    rw [after_cons, ih hcs, advance, if_neg hc.symm, expandTabs_cons, length_append]
    split <;> simp <;> omega

/-- After a line end a position counts the lines. -/
theorem Pos.after_lines {head : List Char} (hhead : ∀ c ∈ head.getLast?, c = '\n') : origin.after head =
    ⟨head.count '\n', 0⟩ := by
  have hline (p : Pos) (cs : List Char) : (p.after cs).line = p.line + cs.count '\n' := by
    induction cs generalizing p with
    | nil => simp
    | cons _ _ ih =>
      rw [after_cons, ih, advance, count_cons]
      split
      · simp_all; omega
      · split <;> simp_all
  have hcol : (origin.after head).col = 0 := by
    cases hlast : head.getLast? with
    | none => rw [getLast?_eq_none_iff.1 hlast]; rfl
    | some c =>
      obtain ⟨front, rfl⟩ := getLast?_eq_some_iff.1 hlast
      obtain rfl := hhead c hlast
      rw [after_append, after_cons, advance, if_pos rfl]
      rfl
  calc origin.after head = ⟨(origin.after head).line, (origin.after head).col⟩ := rfl
    _ = ⟨0 + head.count '\n', 0⟩ := by rw [hline, hcol]; rfl
    _ = ⟨head.count '\n', 0⟩ := by rw [Int.zero_add]

namespace Lexeme

variable {kind : TokenKind} {cs : List Char}

/-- The blanks that excerpts treat in a way of their own. -/
def blanks : List Char := [' ', '\t', '\n', '\r']

theorem not_mem_blanks {p : Char → Bool} {c : Char} (hp : blanks.any p = false) (hc : p c) : c ∉ blanks :=
  fun hin => any_eq_false.1 hp c hin hc

theorem Numeral.solid (h : Numeral kind cs) : ∀ c ∈ cs, c ∉ blanks := by
  have hdigits {ds : List Char} (hds : ∀ c ∈ ds, inDigits c) : ∀ c ∈ ds, c ∉ blanks :=
    fun c hc => not_mem_blanks (by decide) (hds c hc)
  have hmantissa {kind : TokenKind} {ms : List Char} (hms : Mantissa kind ms) : ∀ c ∈ ms, c ∉ blanks := by
    cases hms with
    | whole hws => exact hdigits hws.all
    | fraction hws hfs =>
      exact forall_mem_append.2 ⟨hdigits hws.all, forall_mem_cons.2 ⟨by decide, hdigits hfs.all⟩⟩
  cases h with
  | plain hms => exact hmantissa hms
  | scaled hms he hsign hds =>
    refine forall_mem_append.2 ⟨hmantissa hms, forall_mem_cons.2 ⟨?_, forall_mem_append.2 ⟨?_, hdigits hds.all⟩⟩⟩
    · rcases he with rfl | rfl <;> decide
    · rcases hsign with rfl | rfl | rfl <;> simp [blanks]

theorem symbol_solid {c : Char} (h : (symbol c cs).outcome = .ok kind) : ∀ d ∈ (symbol c cs).raw, d ∉ blanks := by
  have hsingles : ∀ p ∈ TokenKind.singles, p.1 ∉ blanks := by decide
  have hpairs : ∀ p ∈ TokenKind.pairs, p.1.1 ∉ blanks ∧ p.1.2 ∉ blanks := by decide
  unfold symbol at h ⊢
  split at h
  · cases h
  · next hsingle =>
    have hc := hsingles _ (mem_of_lookup_eq_some hsingle)
    split
    · exact forall_mem_singleton.2 hc
    · split
      · next hpair => simpa using hpairs _ (mem_of_lookup_eq_some hpair)
      · exact forall_mem_singleton.2 hc

/-- No token has a blank in it. -/
theorem ReadsBack.solid (h : ReadsBack kind cs) : ∀ c ∈ cs, c ∉ blanks := by
  obtain ⟨c, cs, rfl, -, -, hread⟩ := h.read
  have hlexeme := hread [] (by simp [EndsToken])
  rw [append_nil, ofChars] at hlexeme
  split at hlexeme
  · next hdigit =>
    have hnumeral := numeral_of_number hdigit (congrArg outcome hlexeme)
    rw [hlexeme] at hnumeral
    exact hnumeral.solid
  · split at hlexeme
    · have hraw : (c :: cs).takeWhile continuesWord = c :: cs := congrArg raw hlexeme
      have hall := all_takeWhile (p := continuesWord) (l := c :: cs)
      rw [hraw, all_eq_true] at hall
      exact fun d hd => not_mem_blanks (by decide) (hall d hd)
    · have hsolid := symbol_solid (congrArg outcome hlexeme)
      rw [hlexeme] at hsolid
      exact hsolid

end Lexeme

theorem Number.wrapInt64_of_small {n : Int} (hlow : -0x4000000000000000 ≤ n) (hhigh : n ≤ 0x4000000000000000) :
    wrapInt64 n = n :=
  Int.bmod_eq_of_le_mul_two (by omega) (by omega)

/-- Whether the lines and columns of a span are at most 2³¹. -/
def Span.InRange (s : Span) : Prop :=
  ∀ n ∈ [s.start.line, s.start.col, s.stop.line, s.stop.col], 0 ≤ n ∧ n ≤ 0x80000000

namespace Excerpt

/-- The character as often as a count says, which must not be negative. -/
def repeat? (c : Char) (count : Int) : Option String :=
  if 0 ≤ count then some ("".pushn c count.toNat) else none

/-- What is left of a line from an index on, which must be one of the line. -/
def sliceFrom? (line : ByteLine) (i : Int) : Option ByteLine :=
  if 0 ≤ i ∧ i ≤ line.length then some (line.drop i.toNat) else none

/-- A line with its number, and the carets under it, in numbers of any size; nothing if a count is negative or the line
    is cut beyond its end. -/
def lineRows? (e : Excerpt) (line : ByteLine) (i : Nat) : Option (List String) := do
  let number := toString (Span.shownNumber (e.span.start.line + i))
  let before : Int := if i = 0 then e.span.start.col - e.commonIndent else 0
  let after : Int := if i + 1 = e.lines.length then line.length - e.span.stop.col else 0
  let shown ← sliceFrom? line e.commonIndent
  let margin ← repeat? ' ' e.numberWidth
  let spaces ← repeat? ' ' (max 0 before)
  let carets ← repeat? '^' (max 1 (line.length - after - before - e.commonIndent))
  pure [padRight number e.numberWidth ++ " | " ++ text shown, margin ++ " | " ++ spaces ++ carets]

/-- The rows of an excerpt, if none of them fails. -/
def rows? (e : Excerpt) : Option (List String) :=
  if e.lines.isEmpty then some []
  else (e.lines.zipIdx.mapM fun (line, i) => e.lineRows? line i).map fun rows => flatten rows ++ [""]

variable {e : Excerpt} {line : ByteLine}

theorem padRight_empty (width : Nat) : padRight "" width = "".pushn ' ' width :=
  String.empty_append

theorem padRight_self (text : String) : padRight text text.length = text := by
  rw [padRight, Nat.sub_self]
  exact String.append_empty

theorem commonIndent_le (hline : line ∈ e.lines) : e.commonIndent ≤ line.length := by
  have hmem : line.indent ∈ e.lines.map (·.indent) := mem_map_of_mem hline
  have hle : e.commonIndent ≤ line.indent := by
    unfold commonIndent
    cases hmin : (e.lines.map (·.indent)).min? with
    | none => exact Nat.zero_le _
    | some => exact (min?_eq_some_iff.1 hmin).2 _ hmem
  exact Nat.le_trans hle ( takeWhile_prefix _).length_le

/-- In a short line nothing is too large for a word. -/
theorem lineRows?_eq (hspan : e.span.InRange) (hline : line ∈ e.lines) (hshort : line.length ≤ 0x40000) (i : Nat) :
    e.lineRows? line i = some (e.lineRows line i) := by
  have hindent := commonIndent_le hline
  obtain ⟨hstart, hstop⟩ : (0 ≤ e.span.start.col ∧ e.span.start.col ≤ 0x80000000) ∧ 0 ≤ e.span.stop.col ∧
      e.span.stop.col ≤ 0x80000000 :=
    ⟨hspan _ (by simp), hspan _ (by simp)⟩
  have hoffset : e.caretOffset i = if i = 0 then e.span.start.col - e.commonIndent else 0 := by
    unfold caretOffset
    split
    · exact Number.wrapInt64_of_small (by omega) (by omega)
    · rfl
  have hcount : Number.wrapInt64 (e.caretEnd i line - e.caretOffset i - e.commonIndent) = line.length -
      (if i + 1 = e.lines.length then line.length - e.span.stop.col else 0) - e.caretOffset i - e.commonIndent := by
    have hend : e.caretEnd i line = line.length -
        (if i + 1 = e.lines.length then line.length - e.span.stop.col else 0) := by
      unfold caretEnd
      split <;> omega
    rw [← hend]
    refine Number.wrapInt64_of_small ?_ ?_ <;> unfold caretEnd <;> split <;> omega
  unfold lineRows? lineRows caretIndent caretCount lineText
  simp only [← hoffset, ← hcount, sliceFrom?, repeat?]
  rw [if_pos (by omega), if_pos (by omega), if_pos (by omega), if_pos (by omega)]
  have hspaces : (max 0 (e.caretOffset i)).toNat = (e.caretOffset i).toNat := by omega
  rw [hspaces, Int.toNat_natCast, Int.toNat_natCast, padRight_empty]
  rfl

theorem mapM_eq_some {β : Type} {f : α → Option β} {g : α → β} {as : List α} (h : ∀ a ∈ as, f a = some (g a)) :
    as.mapM f = some (as.map g) := by
  induction as with
  | nil => rfl
  | cons _ _ ih =>
    obtain ⟨ha, has⟩ := forall_mem_cons.1 h
    rw [mapM_cons, ha, ih has]
    rfl

/-- The rows of an excerpt are computed without a failure and without numbers too large for a word. -/
theorem rows?_eq (hspan : e.span.InRange) (hshort : ∀ line ∈ e.lines,
    line.length ≤ 0x40000) : e.rows? = some e.rows := by
  unfold rows? rows
  split
  · rfl
  · rw [mapM_eq_some fun p hp => lineRows?_eq hspan (fst_mem_of_mem_zipIdx hp)
      (hshort _ (fst_mem_of_mem_zipIdx hp)) p.2]
    rw [Option.map_some, flatMap]

theorem filter_zipIdx {as : List α} {a : α} (h : as[k]? = some a) (j : Nat) :
    (as.zipIdx j).filter (fun p => p.2 = j + k) = [(a, j + k)] := by
  induction as generalizing j k with
  | nil => simp at h
  | cons b _ ih =>
    rw [zipIdx_cons]
    cases k with
    | zero =>
      obtain rfl : b = a := by simpa using h
      rw [filter_cons_of_pos (by simp), filter_eq_nil_iff.2]
      · rfl
      · intro p hp
        have hlt := le_snd_of_mem_zipIdx hp
        simp
        omega
    | succ k =>
      rw [filter_cons_of_neg (by simp), Nat.add_comm k, ← Nat.add_assoc, ih (by simpa using h)]

/-- An excerpt for a place within one line has this line. -/
theorem ofLines_eq {lines : List ByteLine} (hline : lines[k]? = some line) (hstart : span.start.line = k)
    (hstop : span.stop.line = k) : ofLines lines span = ⟨span, [line.trimReturn.expandTabs]⟩ := by
  have hcovered : lines.zipIdx.filter (fun p => decide (span.start.line ≤ p.2) && decide (p.2 ≤ span.stop.line)) =
      [(line, k)] := by
    have hfilter := filter_zipIdx hline 0
    rw [Nat.zero_add] at hfilter
    rw [← hfilter, hstart, hstop]
    refine filter_congr fun p _ => ?_
    rw [← Bool.decide_and]
    exact decide_eq_decide.2 (by omega)
  exact congrArg (fun covered => Excerpt.mk span (covered.map fun p => p.1.trimReturn.expandTabs)) hcovered

/-- The rows of an excerpt of one line. -/
theorem rows_singleton (hlines : e.lines = [line]) (hsame : e.span.stop.line = e.span.start.line) {left count : Nat}
    (hleft : Number.wrapInt64 (e.span.start.col - line.indent) = left)
    (hcount : Number.wrapInt64 (e.span.stop.col - left - line.indent) = count) (hpos : 0 < count) :
    e.rows = [toString (Span.shownNumber e.span.start.line) ++ " | " ++ text (line.drop line.indent),
      "".pushn ' ' (toString (Span.shownNumber e.span.start.line)).length ++ " | " ++ "".pushn ' ' left ++ "".pushn
        '^' count, ""] := by
  have hindent : e.commonIndent = line.indent := by rw [commonIndent, hlines]; rfl
  have hoffset : e.caretOffset 0 = left := by rw [caretOffset, if_pos rfl, hindent, hleft]
  have hend : e.caretEnd 0 line = e.span.stop.col := by rw [caretEnd, hlines, if_pos (by simp)]
  have hspaces : e.caretIndent 0 = left := by rw [caretIndent, hoffset, Int.toNat_natCast]
  have hcarets : e.caretCount 0 line = count := by
    rw [caretCount, hend, hoffset, hindent, hcount]
    omega
  have hrows : e.rows = e.lineRows line 0 ++ [""] := by
    rw [rows, hlines]
    rfl
  have hnumber : e.span.start.line + ((0 : Nat) : Int) = e.span.start.line := Int.add_zero _
  rw [hrows, lineRows, hspaces, hcarets, lineText, hindent, padRight_empty, numberWidth, hsame, hnumber, padRight_self]
  rfl

section Line

variable {before raw after : List Char} (hdecode : decode line = before ++ (raw ++ after)) (hraw : raw ≠ [])
  (hsolid : ∀ c ∈ raw, c ∉ Lexeme.blanks)
include hdecode hraw hsolid

/-- A line as it is shown, around a part of it without blanks. -/
theorem decode_shown : decode line.trimReturn.expandTabs =
    Text.expandTabs before ++ (raw ++ Text.expandTabs (Text.trimReturn after)) := by
  have hlast : (before ++ raw).getLast? ≠ some '\r' := by
    rw [getLast?_append]
    cases hlast : raw.getLast? with
    | none => exact absurd (getLast?_eq_none_iff.1 hlast) hraw
    | some =>
      rintro ⟨⟩
      exact hsolid _ (mem_of_getLast? hlast) (by decide)
  have htabs : Text.expandTabs raw = raw := Text.expandTabs_of_not_mem fun hin => hsolid _ hin (by decide)
  rw [decode_expandTabs, decode_trimReturn, hdecode, ← append_assoc, trimReturn_append hlast,
    expandTabs_append, expandTabs_append, htabs, append_assoc]

theorem dropWhile_shown : (decode line.trimReturn.expandTabs).dropWhile (· = ' ') =
    unindent before ++ (raw ++ Text.expandTabs (Text.trimReturn after)) := by
  have hstops : StopsAt (· = ' ') (raw ++ Text.expandTabs (Text.trimReturn after)) := by
    obtain ⟨c, cs, rfl⟩ := exists_cons_of_ne_nil hraw
    rintro d ⟨⟩
    refine decide_eq_false ?_
    rintro rfl
    exact hsolid _ mem_cons_self (by decide)
  rw [decode_shown hdecode hraw hsolid, dropWhile_append (by simp [hraw]) hstops]
  rfl

/-- The indentation and what comes after it before the part make up the columns before the part. -/
theorem length_expandTabs_eq : (Text.expandTabs before).length = line.trimReturn.expandTabs.indent +
    (unindent before).length := by
  have hlength := congrArg length (takeWhile_append_dropWhile (p := (· = ' ')) (l := decode line.trimReturn.expandTabs))
  rw [dropWhile_shown hdecode hraw hsolid] at hlength
  rw [length_append, ← (decode_indent _).2, decode_shown hdecode hraw hsolid] at hlength
  simp only [length_append] at hlength
  omega

/-- The carets under a line stand under the part that the span covers. -/
theorem rows_line (hshort : line.length < maxLength)
    (hstart : span.start = ⟨k, (Text.expandTabs before).length⟩)
    (hstop : span.stop = ⟨k, (Text.expandTabs before).length + raw.length⟩) :
      rows ⟨span, [line.trimReturn.expandTabs]⟩ =
      [toString (Span.shownNumber k) ++ " | " ++ .ofList
       (unindent before ++ (raw ++ Text.expandTabs (Text.trimReturn after))),
       "".pushn ' ' (toString (Span.shownNumber k)).length ++ " | " ++ "".pushn ' ' (unindent before).length ++
         "".pushn '^' raw.length, ""] := by
  have hcolumns := length_expandTabs_eq hdecode hraw hsolid
  have hbound : (Text.expandTabs before).length + raw.length ≤ 4 * line.length := by
    have hdecoded := length_decodeAfter_le 0 line.trimReturn.expandTabs
    rw [← decode, decode_shown hdecode hraw hsolid, length_append, length_append] at hdecoded
    exact Nat.le_trans (by omega) (Nat.le_trans hdecoded line.length_shown_le)
  rw [maxLength] at hshort
  have hcol : span.start.col = (Text.expandTabs before).length := congrArg Pos.col hstart
  have hcol' : span.stop.col = (Text.expandTabs before).length + raw.length := congrArg Pos.col hstop
  have hleft : Number.wrapInt64 (span.start.col - line.trimReturn.expandTabs.indent) = (unindent before).length := by
    rw [Number.wrapInt64_of_small] <;> omega
  have hcount : Number.wrapInt64 (span.stop.col - (unindent before).length - line.trimReturn.expandTabs.indent) =
      raw.length := by
    rw [Number.wrapInt64_of_small] <;> omega
  have hrows := rows_singleton (e := ⟨span, [line.trimReturn.expandTabs]⟩) rfl (by rw [hstart, hstop]) hleft hcount
    (length_pos_iff.2 hraw)
  rw [hrows, hstart, text, (decode_indent _).1, dropWhile_shown hdecode hraw hsolid]

end Line

end Excerpt

/-- Whether rows show the line of a stretch of a text, with tabs as four spaces and without indentation, and carets
    under exactly the characters of the stretch. -/
inductive Stretch.Underlined (r : Stretch) (chars : List Char) : List String → Prop
  | line {head before after tail right : List Char} {number : String} (hstart : chars.take r.start = head ++ before)
      (hstop : chars.drop r.stop = after ++ tail) (hline : '\n' ∉ before ++ (r.of chars ++ after))
      (hhead : ∀ c ∈ head.getLast?, c = '\n') (htail : ∀ c ∈ tail.head?, c = '\n')
      (hshown : unindent (Text.trimReturn (before ++ (r.of chars ++ after))) = unindent before ++ (r.of chars ++ right))
      (hnumber : number = toString (Span.shownNumber (head.count '\n'))) :
      Underlined r chars [number ++ " | " ++ .ofList (unindent before ++ (r.of chars ++ right)),
        "".pushn ' ' number.length ++ " | " ++ "".pushn ' ' (unindent before).length ++ "".pushn '^'
          (r.of chars).length, ""]

/-- What comes after the last line end of a text. -/
theorem exists_lastLine (cs : List Char) : ∃ head before, cs = head ++ before ∧ (∀ c ∈ head.getLast?, c = '\n') ∧
    '\n' ∉ before := by
  induction cs with
  | nil => exact ⟨[], [], rfl, by simp, by simp⟩
  | cons c _ ih =>
    obtain ⟨head, before, rfl, hhead, hbefore⟩ := ih
    cases head with
    | cons d head => exact ⟨c :: d :: head, before, rfl, fun e he => hhead e (getLast?_cons_cons ▸ he), hbefore⟩
    | nil =>
      by_cases hc : c = '\n'
      · exact ⟨[c], before, rfl, by simp [hc], hbefore⟩
      · exact ⟨[], c :: before, rfl, by simp, by simp [hbefore, Ne.symm hc]⟩

theorem Tiles.lexed {chars : List Char} {i : Nat} {ranges : List Stretch} {results : List (Except SourceError Token)}
    (h : Tiles chars k ranges results) {r : Stretch} (hr : ranges[i]? = some r) (hresult : results[i]? = some result) :
    r.start ≤ r.stop ∧ Lexed none (r.of chars) (chars.drop r.stop) (r.span chars) result := by
  induction h generalizing i with
  | nil => simp at hr
  | cons _ hrange _ _ hlexed _ ih =>
    cases i with
    | zero =>
      cases hr
      cases hresult
      exact ⟨hrange, hlexed⟩
    | succ => exact ih hr hresult

theorem Scanner.exists_next_of_mem_steps {n : Nat} {s : Scanner} (h : result ∈ s.steps n) :
    ∃ s' : Scanner, s'.next.1 = result := by
  induction n generalizing s with
  | zero => simp [steps] at h
  | succ _ ih =>
    rcases mem_cons.1 h with rfl | h
    · exact ⟨s, rfl⟩
    · exact ih h

/-- The characters that a token is read from have no blanks among them. -/
theorem Lexed.solid {raw rest : List Char} {t : Token} (h : Lexed none raw rest span (.ok t)) (hkind : t.kind ≠ .eof)
    (hread : t.ReadsBack) : raw ≠ [] ∧ t.span = span ∧ ∀ c ∈ raw, c ∉ Lexeme.blanks := by
  cases h with
  | eof => exact absurd rfl hkind
  | token hraw =>
    refine ⟨hraw, rfl, fun c hc => ?_⟩
    have hsolid := hread.solid c
    rw [String.toList_ofList] at hsolid
    split at hsolid
    · by_cases hunderscore : c = '_'
      · rw [hunderscore]
        decide
      · exact hsolid (mem_filter.2 ⟨hc, by simpa using hunderscore⟩)
    · exact hsolid hc

/-- The excerpt for a stretch without blanks underlines it. -/
theorem Stretch.underlined {bytes : List UInt8} (hlines : ∀ line ∈ split bytes, line.isTooLong = false) {r : Stretch}
    (hrange : r.start ≤ r.stop) (hraw : r.of (decode bytes) ≠ [])
    (hsolid : ∀ c ∈ r.of (decode bytes), c ∉ Lexeme.blanks) : r.Underlined (decode bytes)
    (Excerpt.ofLines (split bytes) (r.span (decode bytes))).rows := by
  generalize hchars : decode bytes = chars at hraw hsolid ⊢
  obtain ⟨head, before, hstart, hhead, hbefore⟩ := exists_lastLine (chars.take r.start)
  let after := (chars.drop r.stop).takeWhile (· ≠ '\n')
  let tail := (chars.drop r.stop).dropWhile (· ≠ '\n')
  have hstop : chars.drop r.stop = after ++ tail := takeWhile_append_dropWhile.symm
  have htail : ∀ c ∈ tail.head?, c = '\n' := by
    intro c hc
    have hnot := head?_dropWhile_not (· ≠ '\n') (chars.drop r.stop)
    rw [hc] at hnot
    simpa using hnot
  have hnoEnd : '\n' ∉ r.of chars := fun hin => hsolid _ hin (by decide)
  have hline : '\n' ∉ before ++ (r.of chars ++ after) := by
    have hafter : '\n' ∉ after := fun hin => absurd (all_eq_true.1 all_takeWhile _ hin) (by decide)
    simp [hbefore, hnoEnd, hafter]
  have htake : chars.take r.stop = chars.take r.start ++ r.of chars := by
    rw [Stretch.of, ← Nat.min_eq_left hrange, ← take_take, Nat.min_eq_left hrange, take_append_drop]
  have hsplit : decode bytes = head ++ ((before ++ (r.of chars ++ after)) ++ tail) := by
    calc decode bytes = chars.take r.stop ++ chars.drop r.stop := by rw [take_append_drop, hchars]
      _ = head ++ ((before ++ (r.of chars ++ after)) ++ tail) := by
        rw [htake, hstart, hstop]
        simp only [append_assoc]
  obtain ⟨line, hget, hdecode⟩ := exists_split_eq hsplit hhead hline (by simp [hraw]) htail
  have hshort : line.length < maxLength := by
    simpa [isTooLong] using hlines line (mem_of_getElem? hget)
  have hspanStart : (r.span chars).start = ⟨head.count '\n', (Text.expandTabs before).length⟩ := by
    rw [Stretch.span, hstart, Pos.after_append, Pos.after_lines hhead, Pos.after_of_not_mem hbefore, Int.zero_add]
  have hspanStop : (r.span chars).stop = ⟨head.count '\n', (Text.expandTabs before).length + (r.of chars).length⟩ := by
    have htabs : Text.expandTabs (r.of chars) = r.of chars := Text.expandTabs_of_not_mem fun hin =>
        hsolid _ hin (by decide)
    have hafter : (r.span chars).stop = (r.span chars).start.after (r.of chars) := by
      rw [Stretch.span, htake, Pos.after_append]
    rw [hafter, hspanStart, Pos.after_of_not_mem hnoEnd, htabs]
  rw [Excerpt.ofLines_eq hget (congrArg Pos.line hspanStart) (congrArg Pos.line hspanStop),
    Excerpt.rows_line hdecode hraw hsolid hshort hspanStart hspanStop]
  refine .line hstart hstop hline hhead htail ?_ rfl
  rw [unindent, ← hdecode, ← decode_trimReturn, ← decode_expandTabs,
    Excerpt.dropWhile_shown hdecode hraw hsolid]

namespace Report

/-- Excerpts point at what they are about. No count or cut goes wrong, whatever the span; and the excerpt for a token
    shows its line and carets under exactly the characters that the token was read from. -/
theorem excerpt_underlines_tokens (bytes : List UInt8) (hlines : ∀ line ∈ split bytes, line.isTooLong = false)
    (path : String) :
    (∀ span : Span, span.InRange → ∃ rows, (Excerpt.ofLines (split bytes) span).rows? = some rows ∧
      excerpt path bytes span = printLines rows) ∧
    ∀ n, ∃ ranges, Tiles (decode bytes) 0 ranges ((Scanner.start (.ofBytes bytes)).steps n) ∧
      ∀ (i : Nat) (r : Stretch) (t : Token), ranges[i]? = some r →
        ((Scanner.start (.ofBytes bytes)).steps n)[i]? = some (.ok t) →
        t.kind ≠ .eof → ∃ rows, r.Underlined (decode bytes) rows ∧ excerpt path bytes t.span = printLines rows := by
  have hexcerpt (span : Span) : excerpt path bytes span = printLines (Excerpt.ofLines (split bytes) span).rows := by
    rw [excerpt, if_neg (by simpa using hlines)]
  refine ⟨fun span hspan => ⟨_, Excerpt.rows?_eq hspan ?_, hexcerpt span⟩, fun n => ?_⟩
  · intro line hline
    obtain ⟨p, hp, rfl⟩ := mem_map.1 hline
    have hshort : p.1.length < maxLength := by
      simpa [isTooLong] using hlines p.1 (fst_mem_of_mem_zipIdx (mem_filter.1 hp).1)
    have hle := p.1.length_shown_le
    rw [maxLength] at hshort
    exact Nat.le_trans hle (by omega)
  · have hpast : (Scanner.start (.ofBytes bytes)).Past (decode bytes) [] := ⟨rfl, rfl, rfl⟩
    obtain ⟨ranges, -, -, htiles, -⟩ := hpast.steps n
    refine ⟨ranges, htiles, fun i r t hr ht hkind => ⟨_, ?_, hexcerpt t.span⟩⟩
    obtain ⟨hrange, hlexed⟩ := htiles.lexed hr ht
    obtain ⟨s, hnext⟩ := Scanner.exists_next_of_mem_steps (mem_of_getElem? ht)
    have hread : t.ReadsBack := (Scanner.readsBack_of_next hnext).resolve_left fun heof => hkind heof.1
    obtain ⟨hraw, hspan, hsolid⟩ := hlexed.solid hkind hread
    rw [hspan]
    exact Stretch.underlined hlines hrange hraw hsolid

/-- A tab, a blank of two bytes and a blank of one before a number with an underscore. -/
def sample : List UInt8 := [0x09, 0xC2, 0xA0, 0x20, 0x31, 0x5F, 0x30]

theorem excerpt_underlines_tokens_sample : (∀ line ∈ split sample, line.isTooLong = false) ∧
    (Span.InRange ⟨⟨0, 6⟩, ⟨9, 0⟩⟩ ∧ ∃ rows, (Excerpt.ofLines (split sample) ⟨⟨0, 6⟩, ⟨9, 0⟩⟩).rows? = some rows ∧
      excerpt "" sample ⟨⟨0, 6⟩, ⟨9, 0⟩⟩ = printLines rows) ∧
    (Scanner.start (.ofBytes sample)).steps 1 = [.ok ⟨.intLit, "10", ⟨⟨0, 6⟩, ⟨0, 9⟩⟩⟩] ∧
    ∃ r rows, Stretch.Underlined r (decode sample) rows ∧ excerpt "" sample ⟨⟨0, 6⟩, ⟨0, 9⟩⟩ = printLines rows := by
  have hlines : ∀ line ∈ split sample, line.isTooLong = false := by decide
  have hspan : Span.InRange ⟨⟨0, 6⟩, ⟨9, 0⟩⟩ := by simp [Span.InRange]
  have hsteps : (Scanner.start (.ofBytes sample)).steps 1 = [.ok ⟨.intLit, "10", ⟨⟨0, 6⟩, ⟨0, 9⟩⟩⟩] := by
    have hdecode : decode sample = ['\t', '\u00a0', ' ', '1', '_', '0'] := by decide
    rw [Source.ofBytes, hdecode]
    rfl
  obtain ⟨hchecked, htokens⟩ := excerpt_underlines_tokens sample hlines ""
  obtain ⟨ranges, htiles, hunderlined⟩ := htokens 1
  obtain ⟨r, hr⟩ : ∃ r, ranges[0]? = some r := by
    cases htiles
    exact ⟨_, rfl⟩
  exact ⟨hlines, ⟨hspan, hchecked _ hspan⟩, hsteps, r, hunderlined 0 r _ hr rfl (by simp)⟩

end Report

end LocLang
