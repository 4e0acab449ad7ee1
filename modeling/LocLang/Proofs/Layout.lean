import LocLang.Proofs.Analysis.Strictness
import LocLang.Proofs.Lowering.Bare
import LocLang.Proofs.Parser.Abreast

namespace LocLang

def SourceError.unplaced (e : SourceError) : SourceError :=
  e.moved fun _ => .origin

def Diagnostic.unplaced (d : Diagnostic) : Diagnostic :=
  d.moved fun _ => .origin

/-- Tokens of the same kinds and texts denote the same program up to its places, or fail alike up to the place. -/
theorem Program.ofTokens_eq_of_texts {ts ts' : List Token} {last : Token} (hlast : last.kind = .eof)
    (h : ts'.map (fun t => (t.kind, t.text)) = (ts ++ [last]).map (fun t => (t.kind, t.text))) :
    movedOutcome (fun _ => .origin) unplaced (ofTokens (ts'.map .ok)) =
      movedOutcome (fun _ => .origin) unplaced (ofTokens ((ts ++ [last]).map .ok)) := by
  have hplain (ts : List Token) : (ts.map fun t => (.ok (t.moved fun _ => .origin) : Except SourceError Token)) =
      (ts.map fun t => (t.kind, t.text)).map fun r => .ok ⟨r.1, r.2, ⟨.origin, .origin⟩⟩ := by
    rw [List.map_map]
    rfl
  have hmoved (ts : List Token) {last : Token} (hlast : last.kind = .eof) :
      ofTokens ((ts ++ [last]).map fun t => .ok (t.moved fun _ => .origin)) =
        movedOutcome (fun _ => .origin) unplaced (ofTokens ((ts ++ [last]).map .ok)) := ofTokens_moved rfl ts hlast
  rcases List.eq_nil_or_concat ts' with rfl | ⟨us, last', rfl⟩
  · simp at h
  · rw [List.concat_eq_append] at h ⊢
    have hlast' : last'.kind = .eof := by
      rw [List.map_append, List.map_append] at h
      have hsame := List.append_inj_right' h rfl
      rw [(Prod.mk.inj (List.cons.inj hsame).1).1, hlast]
    rw [← hmoved us hlast', ← hmoved ts hlast, hplain, hplain, h]

/-- Programs that are equal up to their places have the same diagnostics up to theirs. -/
theorem Program.diagnostics_eq_of_unplaced {p p' : Program Unit} (h : p'.unplaced = p.unplaced) (strict : Bool) :
    (p'.analyze strict).diagnostics.map (·.unplaced) = (p.analyze strict).diagnostics.map (·.unplaced) := by
  have hmoved (r : Program Unit) : (r.unplaced.analyze strict).diagnostics =
      (r.analyze strict).diagnostics.map (·.unplaced) :=
    r.diagnostics_moved strict
  rw [← hmoved, ← hmoved, h]

theorem Program.hasErrors_eq_of_unplaced {p p' : Program Unit} (h : p'.unplaced = p.unplaced) (strict : Bool) :
    (p'.analyze strict).hasErrors = (p.analyze strict).hasErrors := by
  have hany (ds : List Diagnostic) : (ds.map (·.unplaced)).any (·.isError) = ds.any (·.isError) := by
    rw [List.any_map]
    rfl
  unfold Analysis.hasErrors
  rw [← hany, diagnostics_eq_of_unplaced h, hany]

namespace Source

/-- Layout does not matter. A text that can be read to its end and its tokens with single blanks between them have the
    same tokens; they fail to be a program with the same error, or they are the same program, with the same diagnostics,
    all up to places; without errors they have the same code. -/
theorem layout_irrelevant {source : Source} {ts : List Token} {last : Token}
    (htokens : source.tokens = (ts ++ [last]).map .ok)
    (hlast : last.kind = .eof) : (∃ ts' : List Token, (respaced ts).tokens = ts'.map .ok ∧
        ts'.map (fun t => (t.kind, t.text)) = (ts ++ [last]).map (fun t => (t.kind, t.text))) ∧
      (∀ e, source.parse = .error e → ∃ e', (respaced ts).parse = .error e' ∧ e'.unplaced = e.unplaced) ∧
      ∀ p, source.parse = .ok p → ∃ p', (respaced ts).parse = .ok p' ∧ p'.unplaced = p.unplaced ∧ ∀ strict,
        (p'.analyze strict).diagnostics.map (·.unplaced) = (p.analyze strict).diagnostics.map (·.unplaced) ∧
          ((p.analyze strict).hasErrors = false → ∀ target, ∃ m, (p.analyze strict).lower target = .ok m ∧
            (p'.analyze strict).lower target = .ok m) := by
  obtain ⟨ts', htokens', htexts⟩ := tokens_respaced htokens hlast
  have houtcome : movedOutcome (fun _ => .origin) Program.unplaced (respaced ts).parse =
      movedOutcome (fun _ => .origin) Program.unplaced source.parse := by
    rw [parse, parse, htokens, htokens']
    exact Program.ofTokens_eq_of_texts hlast htexts
  refine ⟨⟨ts', htokens', htexts⟩, fun e he => ?_, fun p hp => ?_⟩
  · rw [he] at houtcome
    cases hparse : (respaced ts).parse with
    | ok =>
      rw [hparse] at houtcome
      cases houtcome
    | error e' =>
      rw [hparse] at houtcome
      exact ⟨e', rfl, Except.error.inj houtcome⟩
  · rw [hp] at houtcome
    cases hparse : (respaced ts).parse with
    | error =>
      rw [hparse] at houtcome
      cases houtcome
    | ok p' =>
      rw [hparse] at houtcome
      have hsame : p'.unplaced = p.unplaced := Except.ok.inj houtcome
      refine ⟨p', rfl, hsame, fun strict => ?_⟩
      refine ⟨Program.diagnostics_eq_of_unplaced hsame strict, fun herrors target => ?_⟩
      have herrors' := (Program.hasErrors_eq_of_unplaced hsame strict).trans herrors
      obtain ⟨m, hm, -⟩ := Lower.program_lowers (Program.accepts_of_hasErrors herrors) herrors target
      have hbare := congrArg Program.plain hsame.symm
      exact ⟨m, hm, (Program.lower_eq_of_bare herrors herrors' hbare target).trans hm⟩

/-- A function with a comment, line ends and an underscore. -/
def thousand : Source :=
  .ofText "fn f()
{ print(1_000); // a thousand
}"

def thousandTokens : List Token :=
  thousand.tokens.filterMap (·.toOption)

theorem layout_irrelevant_thousand : ∃ ts last, thousand.tokens = (ts ++ [last]).map .ok ∧ last.kind = .eof ∧
    respaced ts = .ofText "fn f ( ) { print ( 1000 ) ; }" ∧ ∃ p, thousand.parse = .ok p ∧
      ∃ p', (ofText "fn f ( ) { print ( 1000 ) ; }").parse = .ok p' ∧ p'.unplaced = p.unplaced := by
  have htokens : thousand.tokens = (thousandTokens.dropLast ++ [thousandTokens.getLastD default]).map .ok := by rfl
  have hlast : (thousandTokens.getLastD default).kind = .eof := by decide +kernel
  have hrespaced : respaced thousandTokens.dropLast = .ofText "fn f ( ) { print ( 1000 ) ; }" := by decide +kernel
  obtain ⟨p, hp, -⟩ : ∃ p, thousand.parse = .ok p ∧ True := exists_eq_ok_of_any (by decide +kernel)
  obtain ⟨p', hp', hsame, -⟩ := (layout_irrelevant htokens hlast).2.2 p hp
  exact ⟨_, _, htokens, hlast, hrespaced, p, hp, p', hp', hsame⟩

end Source

end LocLang
