import LocLang.Proofs.Semantics.Discrete
import LocLang.Proofs.Semantics.Runs

namespace LocLang

/-- The code of an accepted program without floats is the code of its functions. -/
theorem Program.Discrete.implements {source : Source} {p : Program Unit} {strict : Bool} {target : Target}
    {m : IrModule} (h : p.Discrete) (hparse : source.parse = .ok p) (herrors : (p.analyze strict).hasErrors = false)
    (hlower : (p.analyze strict).lower target = .ok m) (floats : FloatUnit) :
    Platform.Implements ⟨m.functions, floats⟩ (p.analyze strict).enums (p.analyze strict).checked :=
  have ha := Program.accepts_of_hasErrors herrors
  { nodup := Lower.nodup_checked_names ha
    discrete := fun _ hf => h.checked hparse herrors hf
    code := fun _ hf => Lower.code_of_mem ha hlower hf }

namespace Program

/-- Lowering keeps the meaning of every accepted program without floats. A call of a function, with arguments of the
    types of its parameters, ends in code as it ends in the tree, after printing the same lines; it ends in code if and
    only if it ends in the tree; and as long as the fuel for the tree is not enough, the code runs on. Neither gets
    stuck. -/
theorem lower_preserves_meaning (source : Source) (p : Program Unit) (strict : Bool) (target : Target)
    (hparse : source.parse = .ok p) (herrors : (p.analyze strict).hasErrors = false) (hdiscrete : p.Discrete) :
    ∃ m, (p.analyze strict).lower target = .ok m ∧
      ∀ (floats : FloatUnit), ∀ f ∈ (p.analyze strict).checked, ∀ args : List Value,
        args.map (·.type.machine) = (f.signature (p.analyze strict).enums).params →
        let inCode := m.run floats f.name (args.map Value.word)
        let inTree := Eval.outcome (p.analyze strict).enums (p.analyze strict).checked f.name args
        (∀ e output, (∃ steps, inCode steps = some (e, output)) ↔
          ∃ fuel e', inTree fuel = some (e', output) ∧ e = e'.map Value.word) ∧
        (∀ fuel, inTree (fuel + 1) = none → inCode fuel = none) ∧
        ∀ fuel output, inTree fuel ≠ some (.stuck, output) := by
  obtain ⟨m, hlower, -⟩ := Lower.program_lowers (accepts_of_hasErrors herrors) herrors target
  refine ⟨m, hlower, fun floats f hf args hargs => ?_⟩
  have himplements := hdiscrete.implements hparse herrors hlower floats
  refine ⟨fun e output => himplements.run_iff_outcome hf hargs e output, fun fuel hnone => ?_,
    fun fuel output hstuck => ?_⟩
  · exact himplements.run_eq_none hf hargs hnone
  · exact (himplements.run_of_outcome hf hargs hstuck).1 rfl

/-- Halves a number as long as it is even, and returns what is left. -/
def oddPart : Source :=
  .ofText "fn odd(n: i64) -> i64 {
  let r: i64 = n;
  while match r - r / 2 * 2 { 0 => true, _ => false } { print(r = r / 2); }
  return r;
}"

theorem lower_preserves_meaning_oddPart : ∃ p, oddPart.parse = .ok p ∧ (p.analyze true).hasErrors = false ∧ p.Discrete ∧
      ∃ m, (p.analyze true).lower {} = .ok m ∧ ∀ floats : FloatUnit, ∃ steps,
        m.run floats "odd" [⟨64, 12⟩] steps = some (.returned (some ⟨64, 3⟩), ["6", "3"]) := by
  have hrun : ∃ p, oddPart.parse = .ok p ∧ (p.analyze true).hasErrors = false ∧ p.Discrete ∧
      ∃ f ∈ (p.analyze true).checked, f.name = "odd" ∧
        [Value.int64 12].map (·.type.machine) = (f.signature (p.analyze true).enums).params ∧
        Eval.outcome (p.analyze true).enums (p.analyze true).checked "odd" [.int64 12] 10 =
          some (.returned (some (.int64 3)), ["6", "3"]) :=
    exists_eq_ok_of_any (by decide +kernel)
  obtain ⟨p, hparse, herrors, hdiscrete, f, hf, hname, hargs, houtcome⟩ := hrun
  obtain ⟨m, hlower, hruns⟩ := lower_preserves_meaning oddPart p true {} hparse herrors hdiscrete
  refine ⟨p, hparse, herrors, hdiscrete, m, hlower, fun floats => ?_⟩
  have hcode := ((hruns floats f hf [.int64 12] hargs).1 (.returned (some ⟨64, 3⟩)) ["6", "3"]).2
    ⟨10, _, hname ▸ houtcome, rfl⟩
  exact hname ▸ hcode

end Program

end LocLang
