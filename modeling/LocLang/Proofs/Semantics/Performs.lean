import LocLang.Proofs.Semantics.Evaluator
import LocLang.Proofs.Semantics.Machine

namespace LocLang.Machine

variable {α β : Type} {platform : Platform} {m m' m'' : Machine} {n k : Nat} {w : World} {Q : Machine → Prop}
  {R : Machine → Prop}

/-- Whether a number of steps leads from one state to another. -/
inductive Steps (platform : Platform) : Nat → Machine → Machine → Prop where
  | zero (m : Machine) : Steps platform 0 m m
  | succ {n : Nat} {m m' m'' : Machine} (first : m.step platform = .ok m') (rest : Steps platform n m' m'') :
      Steps platform (n + 1) m m''

theorem Steps.one (h : m.step platform = .ok m') : Steps platform 1 m m' :=
  .succ h (.zero _)

theorem Steps.trans (h : Steps platform n m m') (h' : Steps platform k m' m'') : Steps platform (n + k) m m'' := by
  induction h with
  | zero => rwa [Nat.zero_add]
  | succ first _ ih =>
    rw [Nat.add_right_comm]
    exact .succ first (ih h')

/-- A run is what its steps lead to. -/
theorem Steps.run_add (h : Steps platform n m m') (k : Nat) : m.run platform (n + k) = m'.run platform k := by
  induction h with
  | zero => rw [Nat.zero_add]
  | succ first _ ih =>
    rw [Nat.add_right_comm, run, first]
    exact ih

/-- A run has not ended before its steps are done. -/
theorem Steps.run_eq_none (h : Steps platform n m m') (hle : k ≤ n) : m.run platform k = none := by
  induction h generalizing k with
  | zero =>
    obtain rfl : k = 0 := by omega
    rfl
  | succ first _ ih =>
    cases k with
    | zero => rfl
    | succ =>
      rw [run, first]
      exact ih (by omega)

/-- A run ends in one way. -/
theorem run_unique {e e' : Ending MachineWord × List String} (h : m.run platform n = some e)
    (h' : m.run platform k = some e') : e = e' := by
  induction n generalizing k m with
  | zero => cases h
  | succ _ ih =>
    cases k with
    | zero => cases h'
    | succ =>
      rw [run] at h h'
      cases hstep : m.step platform with
      | error =>
        rw [hstep] at h h'
        cases h
        cases h'
        rfl
      | ok =>
        rw [hstep] at h h'
        exact ih h h'

/-- Whether some steps lead to a state with the given property. -/
def Reaches (platform : Platform) (m : Machine) (Q : Machine → Prop) : Prop :=
  ∃ k m', Steps platform k m m' ∧ Q m'

theorem Reaches.refl (h : Q m) : m.Reaches platform Q :=
  ⟨0, m, .zero m, h⟩

theorem Reaches.of_step (hstep : m.step platform = .ok m') (h : m'.Reaches platform Q) : m.Reaches platform Q := by
  obtain ⟨k, m'', hsteps, hQ⟩ := h
  exact ⟨k + 1, m'', .succ hstep hsteps, hQ⟩

theorem Reaches.trans (h : m.Reaches platform Q) (hQ : ∀ m', Q m' → m'.Reaches platform R) :
    m.Reaches platform R := by
  obtain ⟨k, m', hsteps, hm'⟩ := h
  obtain ⟨j, m'', hsteps', hR⟩ := hQ m' hm'
  exact ⟨k + j, m'', hsteps.trans hsteps', hR⟩

theorem Reaches.mono (h : m.Reaches platform Q) (hQ : ∀ m', Q m' → R m') : m.Reaches platform R :=
  h.trans fun m' hm' => .refl (hQ m' hm')

/-- Whether the machine does what a run from the tree does in a world: it comes to a state as wanted if the run gives a
    value, it makes `n` steps if the run has not enough fuel, and it comes to where nothing is defined if the run does
    so. A run that makes no sense is not performed. -/
def Performs (platform : Platform) (n : Nat) (m : Machine) (x : Eval α) (w : World) (Q : α → World → Machine → Prop) :
    Prop :=
  match x.run w with
  | .ok a w' => m.Reaches platform (Q a w')
  | .error .timeout _ => ∃ k m', n ≤ k ∧ Steps platform k m m'
  | .error .undefined w' => m.Reaches platform fun m' => m'.step platform = .error .undefined ∧ m'.output = w'.output
  | .error .stuck _ => False

namespace Performs

variable {Q : α → World → Machine → Prop} {x : Eval α}

theorem of_run_eq {a : α} {u : World} (hrun : x.run w = .ok a u) (h : Q a u m) : m.Performs platform n x w Q := by
  rw [Performs, hrun]
  exact .refl h

protected theorem pure {a : α} (h : Q a w m) : m.Performs platform n (pure a) w Q :=
  of_run_eq rfl h

theorem undefined (hstep : m.step platform = .error .undefined) (houtput : m.output = w.output) :
    m.Performs platform n (throw .undefined) w Q :=
  Reaches.refl ⟨hstep, houtput⟩

theorem timeout : m.Performs platform 0 (throw .timeout) w Q :=
  ⟨0, m, Nat.le_refl 0, .zero m⟩

theorem bind {f : α → Eval β} {R : β → World → Machine → Prop} (hx : m.Performs platform n x w Q)
    (hf : ∀ a w' m', Q a w' m' → m'.Performs platform n (f a) w' R) : m.Performs platform n (x >>= f) w R := by
  rw [Performs] at hx ⊢
  rw [EStateM.run_bind]
  cases hrun : x.run w with
  | ok a w' =>
    rw [hrun] at hx
    obtain ⟨k, m', hsteps, hQ⟩ := hx
    have hrest := hf a w' m' hQ
    rw [Performs] at hrest
    dsimp only
    cases hnext : (f a).run w' with
    | ok =>
      rw [hnext] at hrest
      exact .trans ⟨k, m', hsteps, rfl⟩ fun _ h => h ▸ hrest
    | error halt =>
      rw [hnext] at hrest
      cases halt with
      | timeout =>
        obtain ⟨j, m'', hle, hsteps'⟩ := hrest
        exact ⟨k + j, m'', by omega, hsteps.trans hsteps'⟩
      | undefined => exact .trans ⟨k, m', hsteps, rfl⟩ fun _ h => h ▸ hrest
      | stuck => exact hrest
  | error halt =>
    rw [hrun] at hx
    cases halt <;> exact hx

/-- What is known of the first part of a run need not be performed. -/
theorem of_run_bind {x : Eval β} {f : β → Eval α} {b : β} {u : World} (hrun : x.run w = .ok b u)
    (h : m.Performs platform n (f b) u Q) : m.Performs platform n (x >>= f) w Q := by
  rw [Performs, EStateM.run_bind, hrun]
  exact h

/-- After a run the machine may go on. -/
theorem reaches {R : α → World → Machine → Prop} (hx : m.Performs platform n x w Q)
    (hQ : ∀ a w' m', Q a w' m' → m'.Reaches platform (R a w')) : m.Performs platform n x w R := by
  rw [Performs] at hx ⊢
  cases hrun : x.run w with
  | ok a w' =>
    rw [hrun] at hx
    exact hx.trans (hQ a w')
  | error halt =>
    rw [hrun] at hx
    cases halt <;> exact hx

theorem mono {R : α → World → Machine → Prop} (hx : m.Performs platform n x w Q)
    (hQ : ∀ a w' m', Q a w' m' → R a w' m') : m.Performs platform n x w R :=
  hx.reaches fun a w' m' hm' => .refl (hQ a w' m' hm')

/-- A run with less fuel is performed as well. -/
theorem of_le (hx : m.Performs platform n x w Q) (hle : k ≤ n) : m.Performs platform k x w Q := by
  rw [Performs] at hx ⊢
  cases hrun : x.run w with
  | ok =>
    rw [hrun] at hx
    exact hx
  | error halt =>
    rw [hrun] at hx
    cases halt with
    | timeout =>
      obtain ⟨j, m', hj, hsteps⟩ := hx
      exact ⟨j, m', Nat.le_trans hle hj, hsteps⟩
    | undefined | stuck => exact hx

/-- A step takes the place of one unit of fuel. -/
theorem of_step (hstep : m.step platform = .ok m') (hx : m'.Performs platform (n - 1) x w Q) :
    m.Performs platform n x w Q := by
  rw [Performs] at hx ⊢
  cases hrun : x.run w with
  | ok =>
    rw [hrun] at hx
    exact Reaches.of_step hstep hx
  | error halt =>
    rw [hrun] at hx
    cases halt with
    | timeout =>
      obtain ⟨j, m'', hj, hsteps⟩ := hx
      exact ⟨j + 1, m'', by omega, .succ hstep hsteps⟩
    | undefined => exact Reaches.of_step hstep hx
    | stuck => exact hx

theorem of_steps (hsteps : Steps platform k m m') (hx : m'.Performs platform n x w Q) :
    m.Performs platform n x w Q := by
  induction hsteps with
  | zero => exact hx
  | succ first _ ih => exact (ih hx).of_le (Nat.sub_le n 1) |>.of_step first

theorem of_reaches (h : m.Reaches platform R) (hx : ∀ m', R m' → m'.Performs platform n x w Q) :
    m.Performs platform n x w Q := by
  obtain ⟨k, m', hsteps, hR⟩ := h
  exact .of_steps hsteps (hx m' hR)

/-- A loop is performed if its condition and its body are, and the machine makes a step to come back to the condition.
    -/
theorem iterate {condition : Eval Value} {body : Eval Flow} (locals : Locals) {C B E : World → Machine → Prop}
    {R : Option Value → World → Machine → Prop}
    (hcondition : ∀ w m, C w m → m.Performs platform n condition w fun x w' m' =>
      if x.toInt = 0 then E w' m' else B w' m')
    (hbody : ∀ w m, B w m → m.Performs platform n body w fun flow w' m' =>
      match flow with
      | .next _ => ∃ m'', m'.step platform = .ok m'' ∧ C w' m''
      | .ret value => R value w' m')
    (hle : k ≤ n) (h : C w m) :
    m.Performs platform k (Eval.iterate condition body locals k) w fun flow w' m' =>
      match flow with
      | .next locals' => locals' = locals ∧ E w' m'
      | .ret value => R value w' m' := by
  induction k generalizing w m with
  | zero => exact timeout
  | succ _ ih =>
    refine ((hcondition w m h).of_le hle).bind fun x w1 m1 h1 => ?_
    by_cases hx : x.toInt = 0
    · simp only [if_pos hx] at h1 ⊢
      exact .pure ⟨rfl, h1⟩
    · simp only [if_neg hx] at h1 ⊢
      refine ((hbody w1 m1 h1).of_le hle).bind fun flow w2 m2 h2 => ?_
      cases flow with
      | next =>
        obtain ⟨m3, hstep, h3⟩ := h2
        exact of_step hstep (ih (Nat.le_of_succ_le hle) h3)
      | ret => exact .pure h2

end Performs

end LocLang.Machine
