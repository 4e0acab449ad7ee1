import LocLang.Proofs.Parser.Soundness
import LocLang.Proofs.Tree.Rules

namespace LocLang

open List

/-- Whether a text starts like a word and has only characters that words have. -/
structure IsWord (text : String) : Prop where
  starts : ∃ c cs, text.toList = c :: cs ∧ Lexeme.startsWord c
  continues : ∀ c ∈ text.toList, Lexeme.continuesWord c

theorem IsWord.dot_not_mem {text : String} (h : IsWord text) : '.' ∉ text.toList :=
  fun hdot => absurd (h.continues '.' hdot) (by decide)

/-- Whether a token is spelled like a word if it is a name. -/
def Token.Spelled (token : Token) : Prop :=
  token.kind = .ident → IsWord token.text

def Token.AllSpelled (ts : List Token) : Prop :=
  ∀ t ∈ ts, t.Spelled

/-- Some of the tokens of a phrase. -/
theorem Token.AllSpelled.part {ts us : List Token} (h : AllSpelled ts) (hus : us ⊆ ts) : AllSpelled us :=
  fun t ht => h t (hus ht)

/-- Whether a literal, or the one with the other sign, can be written. -/
def Literal.Written : Literal → Prop
  | int n => n.natAbs ≤ maxInt
  | float _ | bool _ => True

theorem Literal.Written.neg? {l l' : Literal} (h : l.Written) (hneg : l.neg? = some l') : l'.Written := by
  cases l with
  | int =>
    cases hneg
    simpa [Written] using h
  | float =>
    cases hneg
    trivial
  | bool => cases hneg

/-- What a parsed tree is made of. -/
def TreeRules.parsed : TreeRules where
  literal := Literal.Written
  label _ := True
  name := IsWord
  blockArm := False

namespace Lexeme

theorem lastDigits_outcome_ne_ident (raw cs : List Char) : (lastDigits raw cs).outcome ≠ .ok .ident := by
  rw [lastDigits]
  split <;> nofun

theorem exponent_outcome_ne_ident {kind : TokenKind} (hkind : kind ≠ .ident) (raw cs : List Char) :
    (exponent kind raw cs).outcome ≠ .ok .ident := by
  have hplain : (Except.ok kind : Except SyntaxCause TokenKind) ≠ .ok .ident := fun h => hkind (Except.ok.inj h)
  unfold exponent
  split
  · exact hplain
  · split
    · split
      · exact lastDigits_outcome_ne_ident _ _
      · split
        · exact lastDigits_outcome_ne_ident _ _
        · exact lastDigits_outcome_ne_ident _ _
    · exact hplain

theorem number_outcome_ne_ident (cs : List Char) : (number cs).outcome ≠ .ok .ident := by
  rw [number]
  split
  · next cs' _ =>
    have hfraction := lastDigits_outcome_ne_ident (cs.takeWhile inDigits ++ ['.']) cs'
    dsimp only
    split
    · next kind hkind => exact exponent_outcome_ne_ident (fun h => hfraction (h ▸ hkind)) _ _
    · exact hfraction
  · exact exponent_outcome_ne_ident (by decide) _ _

theorem symbol_outcome_ne_ident (c : Char) (cs : List Char) : (symbol c cs).outcome ≠ .ok .ident := by
  have hsingle {kind : TokenKind} (h : TokenKind.singles.lookup c = some kind) : kind ≠ .ident := by
    have hall : ∀ p ∈ TokenKind.singles, p.2 ≠ .ident := by decide
    obtain ⟨before, after, heq, -⟩ := lookup_eq_some_iff.1 h
    exact hall (c, kind) (by simp [heq])
  have hpair {d : Char} {kind : TokenKind} (h : TokenKind.pairs.lookup (c, d) = some kind) : kind ≠ .ident := by
    have hall : ∀ p ∈ TokenKind.pairs, p.2 ≠ .ident := by decide
    obtain ⟨before, after, heq, -⟩ := lookup_eq_some_iff.1 h
    exact hall ((c, d), kind) (by simp [heq])
  rw [symbol]
  split
  · nofun
  · next kind hkind =>
    split
    · exact fun h => hsingle hkind (Except.ok.inj h)
    · split
      · next kind' hkind' => exact fun h => hpair hkind' (Except.ok.inj h)
      · exact fun h => hsingle hkind (Except.ok.inj h)

/-- A lexeme that is a name is a word. -/
theorem isWord_text_of_outcome {c : Char} {cs : List Char} (h : (ofChars c cs).outcome = .ok .ident) :
    IsWord ((ofChars c cs).text .ident) := by
  rw [ofChars] at h ⊢
  split at h
  · exact absurd h (number_outcome_ne_ident _)
  · next hdigit =>
    rw [if_neg hdigit]
    split at h
    · next hstart =>
      rw [if_pos hstart]
      have htext : ((word (c :: cs)).text .ident).toList = (c :: cs).takeWhile continuesWord := by
        simp [text, word, TokenKind.isNumber]
      constructor
      · rw [htext, takeWhile_cons_of_pos (by simp [continuesWord, hstart])]
        exact ⟨c, _, rfl, hstart⟩
      · intro d hd
        exact all_eq_true.1 all_takeWhile d (htext ▸ hd)
    · exact absurd h (symbol_outcome_ne_ident _ _)

end Lexeme

theorem Scanner.spelled_of_next {s : Scanner} {token : Token} (h : s.next.1 = .ok token) : token.Spelled := by
  rw [next] at h
  split at h
  · dsimp only at h
    split at h
    · cases h
    · cases h
      nofun
  · next c cs _ =>
    dsimp only at h
    split at h
    · cases h
    · split at h
      · next kind hkind =>
        cases h
        rintro rfl
        exact Lexeme.isWord_text_of_outcome hkind
      · cases h

theorem Scanner.spelled_of_mem_upTo {n : Nat} {s : Scanner} {token : Token} (h : .ok token ∈ s.upTo n) :
    token.Spelled := by
  induction n generalizing s with
  | zero => cases h
  | succ _ ih =>
    rw [upTo] at h
    split at h
    · exact spelled_of_next (mem_singleton.1 h).symm
    · rcases mem_cons.1 h with h | h
      · exact spelled_of_next h.symm
      · exact ih h

namespace Grammar

variable {ts : List Token}

theorem LiteralToken.written {t : Token} {value : Literal} (h : LiteralToken t value) : value.Written := by
  cases h with
  | int _ hrange => simpa [Literal.Written] using hrange
  | _ => trivial

theorem PatternPhrase.obeys {p : Pattern} (h : PatternPhrase ts p) (hts : Token.AllSpelled ts) : p.Obeys .parsed := by
  cases h with
  | literal hvalue => exact hvalue.written
  | negative _ hvalue hnegated => exact hvalue.written.neg? hnegated
  | bind ht => exact hts _ (mem_singleton_self _) ht
  | _ => trivial

-- By induction on how the trees are derived: declared names are tokens of the phrase, and literals are read within
-- their bounds.
mutual

theorem Expression.obeys : ∀ {ts e}, Expression ts e → Token.AllSpelled ts → e.Obeys .parsed
  | _, _, .operation hoperation, hts => Layered.obeys hoperation hts
  | _, _, .assign htarget _ hrhs, hts =>
    ⟨Layered.obeys htarget (hts.part (by grind)), Expression.obeys hrhs (hts.part (by grind))⟩

theorem Layered.obeys : ∀ {k ts e}, Layered Operand k ts e → Token.AllSpelled ts → e.Obeys .parsed
  | _, _, _, .operand hoperand, hts => Operand.obeys hoperand hts
  | _, _, _, .lower hlower, hts => Layered.obeys hlower hts
  | _, _, _, .binary hlhs _ hrhs, hts =>
    ⟨Layered.obeys hlhs (hts.part (by grind)), Layered.obeys hrhs (hts.part (by grind))⟩

theorem Operand.obeys : ∀ {ts e}, Operand ts e → Token.AllSpelled ts → e.Obeys .parsed
  | _, _, .primary hprimary, hts => Primary.obeys hprimary hts
  | _, _, .negativeNumber _ hnumber hnegated, hts =>
    Literal.Written.neg? (Operand.obeys hnumber (hts.part (by grind))) hnegated
  | _, _, .negation _ hoperand _, hts => ⟨Nat.zero_le _, Operand.obeys hoperand (hts.part (by grind))⟩

theorem Primary.obeys : ∀ {ts e}, Primary ts e → Token.AllSpelled ts → e.Obeys .parsed
  | _, _, .atom hatom, hts => Atom.obeys hatom hts
  | _, _, .call hcallee _ hargs _, hts =>
    ⟨Primary.obeys hcallee (hts.part (by grind)), Listed.obeys hargs (hts.part (by grind))⟩

theorem Listed.obeys : ∀ {ts es}, Listed Expression ts es → Token.AllSpelled ts → Expr.ObeyAll .parsed es
  | _, _, .none, _ => trivial
  | _, _, .some hitems, hts => Separated.obeys hitems hts

theorem Separated.obeys : ∀ {ts es}, Separated Expression ts es → Token.AllSpelled ts → Expr.ObeyAll .parsed es
  | _, _, .one hitem, hts => ⟨Expression.obeys hitem hts, trivial⟩
  | _, _, .more hitem _ hrest, hts =>
    ⟨Expression.obeys hitem (hts.part (by grind)), Separated.obeys hrest (hts.part (by grind))⟩

theorem Atom.obeys : ∀ {ts e}, Atom ts e → Token.AllSpelled ts → e.Obeys .parsed
  | _, _, .literal hvalue, _ => hvalue.written
  | _, _, .name _, _ | _, _, .variant _ _ _, _ => trivial
  | _, _, .paren _ hinner _, hts =>
    have hinner := Expression.obeys hinner (hts.part (by grind))
    hinner
  | _, _, .select hmatch, hts => (Selection.obeys hmatch hts).2 rfl

theorem Selection.obeys : ∀ {blocks ts m}, Selection blocks ts m → Token.AllSpelled ts →
    (Stmt.select m).Obeys .parsed ∧ (blocks = false → (Expr.select m).Obeys .parsed)
  | _, _, _, .mk _ hscrutinee _ harms _, hts =>
    have hscrutinee := Expression.obeys hscrutinee (hts.part (by grind))
    have harms {blockArm : Prop} : (_ → blockArm) → Arm.ObeyAll .parsed blockArm _ :=
      Arms.obeys harms (hts.part (by grind))
    ⟨⟨hscrutinee, harms fun _ => trivial⟩, fun hblocks => ⟨hscrutinee, harms (by simp [hblocks])⟩⟩

theorem Arms.obeys : ∀ {blocks ts arms}, Arms blocks ts arms → Token.AllSpelled ts →
    ∀ {blockArm : Prop}, (blocks = true → blockArm) → Arm.ObeyAll .parsed blockArm arms
  | _, _, _, .none, _, _, _ => trivial
  | _, _, _, .last harm, hts, _, hblocks => ⟨Case.obeys harm hts hblocks, trivial⟩
  | _, _, _, .comma harm _ hrest, hts, _, hblocks | _, _, _, .block harm hrest, hts, _, hblocks =>
    ⟨Case.obeys harm (hts.part (by grind)) hblocks, Arms.obeys hrest (hts.part (by grind)) hblocks⟩

theorem Case.obeys : ∀ {blocks ts arm}, Case blocks ts arm → Token.AllSpelled ts →
    ∀ {blockArm : Prop}, (blocks = true → blockArm) → arm.Obeys .parsed blockArm
  | _, _, _, .value hpattern _ hvalue, hts, _, _ =>
    ⟨hpattern.obeys (hts.part (by grind)), Expression.obeys hvalue (hts.part (by grind))⟩
  | _, _, _, .block hpattern _ hbody, hts, _, hblocks =>
    ⟨hblocks rfl, hpattern.obeys (hts.part (by grind)), Body.obeys hbody (hts.part (by grind))⟩

theorem Body.obeys : ∀ {ts b}, Body ts b → Token.AllSpelled ts → b.Obeys .parsed
  | _, _, .mk _ hstmts _, hts => Repeated.obeys hstmts (hts.part (by grind))

theorem Repeated.obeys : ∀ {ts stmts}, Repeated Statement ts stmts → Token.AllSpelled ts → Stmt.ObeyAll .parsed stmts
  | _, _, .nil, _ => trivial
  | _, _, .cons hitem hrest, hts =>
    ⟨Statement.obeys hitem (hts.part (by grind)), Repeated.obeys hrest (hts.part (by grind))⟩

theorem Conditional.obeys : ∀ {ts chain}, Conditional ts chain → Token.AllSpelled ts → chain.Obeys .parsed
  | _, _, .only _ hcondition hbody, hts =>
    ⟨Expression.obeys hcondition (hts.part (by grind)), Body.obeys hbody (hts.part (by grind))⟩
  | _, _, .orElse _ hcondition hbody _ hother, hts =>
    ⟨Expression.obeys hcondition (hts.part (by grind)), Body.obeys hbody (hts.part (by grind)),
      Body.obeys hother (hts.part (by grind))⟩
  | _, _, .orIf _ hcondition hbody _ hnext, hts =>
    ⟨Expression.obeys hcondition (hts.part (by grind)), Body.obeys hbody (hts.part (by grind)),
      Conditional.obeys hnext (hts.part (by grind))⟩

theorem Declaration.obeys : ∀ {ts stmt}, Declaration ts stmt → Token.AllSpelled ts → stmt.Obeys .parsed
  | _, _, .plain _ _ hname _ _ _, hts => ⟨hts _ (by simp) hname, trivial, trivial⟩
  | _, _, .valued _ _ hname _ _ _ hinit _, hts =>
    ⟨hts _ (by simp) hname, trivial, Expression.obeys hinit (hts.part (by grind))⟩

theorem Loop.obeys : ∀ {ts stmt}, Loop ts stmt → Token.AllSpelled ts → stmt.Obeys .parsed
  | _, _, .mk _ hcondition hbody, hts =>
    ⟨trivial, Expression.obeys hcondition (hts.part (by grind)), Body.obeys hbody (hts.part (by grind))⟩

theorem Return.obeys : ∀ {ts stmt}, Return ts stmt → Token.AllSpelled ts → stmt.Obeys .parsed
  | _, _, .plain _ _, _ => trivial
  | _, _, .valued _ hvalue _, hts => Expression.obeys hvalue (hts.part (by grind))

theorem Statement.obeys : ∀ {ts stmt}, Statement ts stmt → Token.AllSpelled ts → stmt.Obeys .parsed
  | _, _, .decl hdecl, hts => Declaration.obeys hdecl hts
  | _, _, .cond hchain, hts => Conditional.obeys hchain hts
  | _, _, .loop hloop, hts => Loop.obeys hloop hts
  | _, _, .select hmatch, hts => (Selection.obeys hmatch hts).1
  | _, _, .selectEnded hmatch _, hts => (Selection.obeys hmatch (hts.part (by grind))).1
  | _, _, .ret hreturn, hts => Return.obeys hreturn hts
  | _, _, .block hbody, hts => Body.obeys hbody hts
  | _, _, .expr hvalue _ _, hts => Expression.obeys hvalue (hts.part (by grind))

end

section Lists

variable {α : Type} {R : List Token → α → Prop} {ts : List Token} {a : α} {as : List α}

theorem Separated.exists_of_mem (h : Separated R ts as) (ha : a ∈ as) : ∃ us, us ⊆ ts ∧ R us a := by
  induction h with
  | one hitem =>
    obtain rfl := mem_singleton.1 ha
    exact ⟨_, Subset.refl _, hitem⟩
  | more hitem _ _ ih =>
    rcases mem_cons.1 ha with rfl | ha
    · exact ⟨_, subset_append_left _ _, hitem⟩
    · obtain ⟨us, hus, hitem⟩ := ih ha
      exact ⟨us, fun t ht => by simp [hus ht], hitem⟩

theorem Repeated.exists_of_mem (h : Repeated R ts as) (ha : a ∈ as) : ∃ us, us ⊆ ts ∧ R us a := by
  induction h with
  | nil => cases ha
  | cons hitem _ ih =>
    rcases mem_cons.1 ha with rfl | ha
    · exact ⟨_, subset_append_left _ _, hitem⟩
    · obtain ⟨us, hus, hitem⟩ := ih ha
      exact ⟨us, fun t ht => by simp [hus ht], hitem⟩

end Lists

theorem Parameter.isWord_name {param : Param} (h : Parameter ts param) (hts : Token.AllSpelled ts) :
    IsWord param.name := by
  cases h with
  | mk _ hname => exact hts _ (by simp) hname

theorem Listed.isWord_name {params : List Param} (h : Listed Parameter ts params) (hts : Token.AllSpelled ts) :
    ∀ p ∈ params, IsWord p.name := by
  intro p hp
  cases h with
  | none => cases hp
  | some hitems =>
    obtain ⟨us, hus, hparam⟩ := hitems.exists_of_mem hp
    exact hparam.isWord_name fun t ht => hts t (hus ht)

theorem FunctionDefinition.obeys {f : FuncDef Unit} (h : FunctionDefinition ts f) (hts : Token.AllSpelled ts) :
    f.Obeys .parsed := by
  cases h with
  | plain _ hname _ hparams _ hbody | returning _ hname _ hparams _ _ _ hbody =>
    exact ⟨hts _ (by simp) hname, fun p hp => ⟨hparams.isWord_name (hts.part (by grind)) p hp, trivial⟩,
      fun _ _ => trivial, hbody.obeys (hts.part (by grind))⟩

end Grammar

/-- Parsed programs obey the rules of parsed trees. -/
theorem Program.obeys_of_parse {source : Source} {p : Program Unit} (h : source.parse = .ok p) : p.Obeys .parsed := by
  obtain ⟨ts, eof, rest, htokens, -, ⟨hdefs⟩⟩ := exists_file_of_ofTokens h
  intro f hf
  obtain ⟨d, hd, hdf⟩ := mem_filterMap.1 hf
  obtain ⟨us, hus, hdef⟩ := hdefs.exists_of_mem hd
  cases hdef with
  | enum => cases hdf
  | func hfunc =>
    cases hdf
    refine hfunc.obeys fun t ht => Scanner.spelled_of_mem_upTo (?_ : .ok t ∈ source.tokens)
    rw [htokens]
    exact mem_append_left _ (mem_map_of_mem (hus ht))

end LocLang
