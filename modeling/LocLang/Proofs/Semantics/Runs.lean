import LocLang.Proofs.Semantics.Functions

namespace LocLang

variable {output : List String} {platform : Platform}

/-- The last step of a run. -/
theorem Machine.Reaches.run_eq_some {m : Machine} {Q : Machine → Prop} {e : Ending MachineWord}
    (h : m.Reaches platform Q) (hlast : ∀ m', Q m' → m'.step platform = .error e ∧ m'.output = output) :
    ∃ steps, m.run platform steps = some (e, output) := by
  obtain ⟨k, m', hsteps, hQ⟩ := h
  obtain ⟨hstep, rfl⟩ := hlast m' hQ
  refine ⟨k + 1, ?_⟩
  rw [hsteps.run_add, Machine.run, hstep]

theorem Machine.Returns.step_last {result : Ty} {value : Option Value} {w : World} {m m' : Machine}
    (h : m.Returns platform result value w m') (hcallers : m.callers = []) :
    m'.step platform = .error (.returned (value.map Value.word)) := by
  have hcallers' := h.callers.trans hcallers
  rw [step_of_term h.insts]
  cases value with
  | none =>
    rw [h.term.2]
    simp only [finish, leave, hcallers']
    rfl
  | some =>
    obtain ⟨-, -, o, hterm, hread⟩ := h.term
    rw [hterm]
    simp only [finish, hread, bind, Except.bind, leave, hcallers']
    rfl

/-- Arguments of the types of the parameters are passed as they are. -/
theorem Fragment.argumentWords_eq_map (c : Fragment) {ps : List Param} {xs : List Value}
    (h : xs.map (·.type.machine) = ps.map fun p => (c.enums.labelType (some p.label)).1.machine) :
    c.argumentWords ps xs = xs.map Value.word := by
  induction ps generalizing xs with
  | nil =>
    obtain rfl : xs = [] := by simpa using h
    rfl
  | cons p _ ih =>
    cases xs with
    | nil => cases h
    | cons x =>
      obtain ⟨hhead, htail⟩ := List.cons.inj h
      have hword : (x.convert (c.enums.labelType (some p.label)).1).word = x.word := by
        rw [Value.convert_eq_self hhead]
      rw [List.map_cons, ← hword, ← ih htail]
      rfl

namespace Platform.Implements

variable {m : IrModule} {floats : FloatUnit} {enums : EnumTable} {functions : List (FuncDef Ty)} {f : FuncDef Ty}
  {args : List Value}

/-- A call of a function, run by the machine and from the tree. -/
theorem run_activated (h : Implements ⟨m.functions, floats⟩ enums functions) (hf : f ∈ functions)
    (hargs : args.map (·.type.machine) = (f.signature enums).params) :
    ∃ top, (∀ steps, m.run floats f.name (args.map Value.word) steps = Machine.run ⟨m.functions,
      floats⟩ steps { top }) ∧
      ∀ fuel, Machine.Performs ⟨m.functions, floats⟩ (fuel - 1) { top } (Eval.call enums functions fuel f.name args) {}
        fun value w' m' => Machine.Returns ⟨m.functions, floats⟩ (enums.labelType f.result).1 value w' { top } m' := by
  rw [FuncDef.signature_eq] at hargs
  have hlength : f.params.length = args.length := by simpa using (congrArg List.length hargs).symm
  have hwords := Fragment.argumentWords_eq_map ⟨enums, functions, .void⟩ hargs
  obtain ⟨top, hactivate, -⟩ := h.callsAgree 0 .void f hf args hlength
  refine ⟨top, fun steps => ?_, fun fuel => ?_⟩
  · rw [← hwords]
    simp only [IrModule.run, hactivate]
  · obtain ⟨top', hactivate', hperforms⟩ := h.callsAgree fuel .void f hf args hlength
    rw [hactivate] at hactivate'
    cases hactivate'
    exact (hperforms [] {}).mono fun value w' m' hm' => hm'.2

/-- What a run from the tree ends with, the machine ends with. -/
theorem run_of_outcome (h : Implements ⟨m.functions, floats⟩ enums functions) (hf : f ∈ functions)
    (hargs : args.map (·.type.machine) = (f.signature enums).params) {fuel : Nat} {e : Ending Value}
    (houtcome : Eval.outcome enums functions f.name args fuel = some (e, output)) :
    e ≠ .stuck ∧ ∃ steps, m.run floats f.name (args.map Value.word) steps = some (e.map Value.word, output) := by
  obtain ⟨top, hrun, hperforms⟩ := h.run_activated hf hargs
  simp only [hrun]
  have hcall := hperforms fuel
  rw [Machine.Performs] at hcall
  rw [Eval.outcome] at houtcome
  cases hresult : (Eval.call enums functions fuel f.name args).run {} with
  | ok =>
    rw [hresult] at houtcome hcall
    cases houtcome
    exact ⟨by simp, hcall.run_eq_some fun m' hm' => ⟨hm'.step_last rfl, hm'.output⟩⟩
  | error halt =>
    rw [hresult] at houtcome hcall
    cases halt with
    | timeout => cases houtcome
    | undefined =>
      cases houtcome
      exact ⟨by simp, hcall.run_eq_some fun m' hm' => hm'⟩
    | stuck => exact hcall.elim

/-- As long as a run from the tree has not enough fuel, the machine goes on. -/
theorem run_eq_none (h : Implements ⟨m.functions, floats⟩ enums functions) (hf : f ∈ functions)
    (hargs : args.map (·.type.machine) = (f.signature enums).params) {fuel : Nat}
    (houtcome : Eval.outcome enums functions f.name args (fuel + 1) = none) :
    m.run floats f.name (args.map Value.word) fuel = none := by
  obtain ⟨top, hrun, hperforms⟩ := h.run_activated hf hargs
  have hcall := hperforms (fuel + 1)
  rw [Machine.Performs] at hcall
  rw [Eval.outcome] at houtcome
  cases hresult : (Eval.call enums functions (fuel + 1) f.name args).run {} with
  | ok =>
    rw [hresult] at houtcome
    cases houtcome
  | error halt =>
    rw [hresult] at houtcome hcall
    cases halt with
    | timeout =>
      obtain ⟨k, m', hle, hsteps⟩ := hcall
      rw [hrun]
      exact hsteps.run_eq_none hle
    | undefined | stuck => cases houtcome

/-- The machine ends with what a run from the tree ends with, and only if that one ends. -/
theorem run_iff_outcome (h : Implements ⟨m.functions, floats⟩ enums functions) (hf : f ∈ functions)
    (hargs : args.map (·.type.machine) = (f.signature enums).params) (e : Ending MachineWord) (output : List String) :
    (∃ steps, m.run floats f.name (args.map Value.word) steps = some (e, output)) ↔
      ∃ fuel e', Eval.outcome enums functions f.name args fuel = some (e', output) ∧ e = e'.map Value.word := by
  constructor
  · rintro ⟨steps, hsteps⟩
    cases houtcome : Eval.outcome enums functions f.name args (steps + 1) with
    | none =>
      rw [h.run_eq_none hf hargs houtcome] at hsteps
      cases hsteps
    | some result =>
      obtain ⟨e', output'⟩ := result
      obtain ⟨-, steps', hsteps'⟩ := h.run_of_outcome hf hargs houtcome
      obtain ⟨top, hrun, -⟩ := h.run_activated hf hargs
      rw [hrun] at hsteps hsteps'
      have heq := Machine.run_unique hsteps hsteps'
      cases heq
      exact ⟨steps + 1, e', houtcome, rfl⟩
  · rintro ⟨fuel, e', houtcome, rfl⟩
    exact (h.run_of_outcome hf hargs houtcome).2

end Platform.Implements

end LocLang
