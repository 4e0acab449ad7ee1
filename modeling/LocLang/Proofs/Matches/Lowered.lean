import LocLang.Proofs.Lockstep

namespace LocLang

open Lower

variable {span : Span} {result note : Ty}

variable {arms : List (Arm Ty)} {scrutinee : Expr Ty}

/-- A match that is lowered. It stands at a place in the function of the given number; it is lowered in `low` from
    `draft`, and its scrutinee becomes `value`; it was walked in `up` from `state`, and its scrutinee has the type
    `type` there. -/
structure Program.LoweredMatch (p : Program Unit) (strict : Bool) where
  index : Nat
  place : TreePath
  span : Span
  note : Ty
  scrutinee : Expr Ty
  arms : List (Arm Ty)
  low : Env
  result : Ty
  draft : Draft
  value : Operand
  after : Draft
  up : Walk.Env
  expected : Ty
  state : Walk.State
  type : Ty
  walkedState : Walk.State
  lowered : Visits (p.analyze strict) index low place (.selection result (.mk span note scrutinee arms)) draft
  lowers : (expr low scrutinee).Gives { draft with labels := draft.labels + 1 } value after
  walked : Walk.Visits p strict index up place
    (.selection expected (.mk span () (scrutinee.map fun _ => ()) (Arm.mapList (fun _ => ()) arms))) state
  walks : (Walk.expr up .unknown (scrutinee.map fun _ => ())).Gives state (type, scrutinee) walkedState

/-- Whether arms that are lowered from `d` and were walked from `s` are matched against the scrutinee: its value, its
    type and its enum. They see the same names as the match. -/
structure Program.LoweredMatch.Matched {p : Program Unit} {strict : Bool} (m : p.LoweredMatch strict) (v : Operand)
    (type : Ty) (enumName : Option String) (d : Draft) (s : Walk.State) : Prop where
  value : m.value = v
  type : m.type = type
  enumName : m.scrutinee.enumName? m.state.scopes = enumName
  draft : d.scopes.entries = m.draft.scopes.entries
  state : s.scopes.entries = m.state.scopes.entries

namespace Lockstep

variable {a : Analysis} {p : Program Unit} {strict : Bool} {index : Nat} {f : FuncDef Ty} {place : TreePath}
  {t : Task} {d : Draft} {u : Walk.Task} {s : Walk.State} {arms' : List (Arm Unit)} {enumName : Option String}

/-- A match that is lowered was walked, its scrutinee first. -/
theorem of_selection
    (h : Lockstep a p strict index f place (.selection result (.mk span note scrutinee arms)) d u s) :
    ∃ expected type s', u = .selection expected
        (.mk span () (scrutinee.map fun _ => ()) (Arm.mapList (fun _ => ()) arms)) ∧
      (Walk.expr (f.walkEnv a.enums) .unknown (scrutinee.map fun _ => ())).Gives s (type, scrutinee) s' ∧
      s'.log.Clean := by
  have herase := h.erase
  obtain ⟨s', hrun, hclean⟩ := h.run
  cases u <;> cases herase
  obtain ⟨x, t', s1, s2, hx, hcall, hrun', hclean'⟩ := Walk.Task.exists_call (k := 0) hrun hclean rfl
  cases hx
  obtain ⟨rfl, rfl⟩ := Walk.gives_pure.1 hcall
  obtain ⟨⟨type, e⟩, hwalk, hnode⟩ := Walk.gives_map.1 hrun'
  cases hnode
  exact ⟨_, type, _, rfl, hwalk, hclean'⟩

/-- The first arms are matched against the scrutinee. -/
theorem matched_of_selection {n : Nat} {v : Operand} {slot : Option Slot} {k : Nat}
    {expected type : Ty} {sofar : Ty} {d' : Draft} {s' : Walk.State}
    {x : Lower Task} {y : Walk Walk.Task}
    (h : Lockstep (p.analyze strict) p strict index f place (.selection result (.mk span note scrutinee arms)) d u s)
    (lowered : ((Task.selection result (.mk span note scrutinee arms)).calls
      (f.lowerEnv (p.analyze strict).enums))[1]? = some x) (lowers : x.Gives d (.armList n v slot k arms) d')
    (walked : (u.calls (f.walkEnv (p.analyze strict).enums))[1]? = some y)
    (walks : y.Gives s (.armList expected type enumName sofar arms') s') :
    ∃ m : p.LoweredMatch strict, m.Matched v type enumName d' s' := by
  have hlowered := h.lowered
  have hwalked := h.walked
  obtain ⟨_, _, s1, rfl, hwalk, hclean⟩ := h.of_selection
  cases lowered
  obtain ⟨n0, d1, hlabel, lowers⟩ := gives_bind.1 lowers
  obtain ⟨rfl, rfl⟩ := gives_nextLabel.1 hlabel
  obtain ⟨v0, d2, hlowers, lowers⟩ := gives_bind.1 lowers
  obtain ⟨slot0, d3, hslot, lowers⟩ := gives_bind.1 lowers
  obtain ⟨_, hbr, htask⟩ := gives_map.1 lowers
  cases htask
  cases walked
  obtain ⟨_, s2, hwalk', walks⟩ := Walk.gives_bind.1 walks
  obtain ⟨rfl, rfl⟩ := hwalk.unique hwalk'
  obtain ⟨table, s3, htable, walks⟩ := Walk.gives_bind.1 walks
  obtain ⟨rfl, rfl⟩ := Walk.gives_scopes.1 htable
  obtain ⟨htask, rfl⟩ := Walk.gives_pure.1 walks
  cases htask
  have hscopes := ((Walk.expr_accepts _ _ _).of_gives hwalk hclean).scopes
  have hdraft : d'.scopes = d.scopes := by
    rw [(Steady.terminate _).scopes_eq hbr, (Built.resultSlot _ _).steady.scopes_eq hslot,
      (expr_steady _ _).scopes_eq hlowers]
  exact ⟨⟨index, place, span, note, scrutinee, arms, _, result, d, v, d2, _, _, s, type, _, hlowered, hlowers, hwalked,
    hwalk⟩, rfl, rfl, by rw [hscopes, Expr.enumName?_map], by rw [hdraft], by rw [hscopes]⟩

/-- Arms that are walked and lowered in step are matched against the scrutinee of a match. -/
theorem exists_matched (h : Lockstep (p.analyze strict) p strict index f place t d u s) {n : Nat} {v : Operand}
    {slot : Option Slot} {k : Nat} {expected type : Ty} {sofar : Ty} (ht : t = .armList n v slot k arms)
    (hu : u = .armList expected type enumName sofar arms') :
    ∃ m : p.LoweredMatch strict, m.Matched v type enumName d s := by
  induction h generalizing n v slot k arms expected type enumName sofar arms' with
  | body => cases ht
  | @call place t _ _ _ u _ _ s1 _ _ _ _ parent lowered lowers walked walks run clean ih =>
    subst ht hu
    obtain ⟨rfl, ⟨span, note, scrutinee, hnode⟩ | ⟨first, hnode⟩⟩ :=
      Node.of_children_eq_arms (Task.children_of_call lowered lowers)
    · cases t <;> cases hnode
      exact parent.matched_of_selection lowered lowers walked walks
    · have herase := parent.erase
      have hclean : s1.log.Clean := ((Walk.Task.run_honest _).extends_of_gives run).clean clean
      cases t <;> cases hnode
      cases u <;> cases herase
      have hdraft := ((Task.leads_of_call _ lowered).stays (Node.declaration?_other_arms _ place)).entries_eq lowers
      have hstate := ((Walk.Task.leads_of_call _ walked).stays (Node.declaration?_other_arms _ place)).entries_eq walks
          hclean
      cases Task.eq_of_arms_call lowered lowers
      obtain ⟨joined, htask⟩ := Walk.Task.eq_of_arms_call walked walks
      cases htask
      obtain ⟨m, hm⟩ := ih rfl rfl
      exact ⟨m, hm.value, hm.type, hm.enumName, hdraft.trans hm.draft, hstate.trans hm.state⟩

end Lockstep

/-- The scrutinee is walked without a fatal finding, in step with its lowering. -/
theorem Program.LoweredMatch.lockstep {p : Program Unit} {strict : Bool}
    (herrors : (p.analyze strict).hasErrors = false) (m : p.LoweredMatch strict) :
    ∃ f u, (p.analyze strict).checked[m.index]? = some f ∧ m.up = f.walkEnv (p.analyze strict).enums ∧
      Lockstep (p.analyze strict) p strict m.index f m.place
        (.selection m.result (.mk m.span m.note m.scrutinee m.arms))
        m.draft u m.state ∧ m.walkedState.log.Clean := by
  obtain ⟨f, u, s, hf, -, hstep⟩ := m.lowered.lockstep herrors
  obtain ⟨henv, -, hstate⟩ := hstep.walked.unique m.walked
  obtain ⟨_, _, s', -, hwalk, hclean⟩ := hstep.of_selection
  rw [henv, hstate] at hwalk
  obtain ⟨-, rfl⟩ := hwalk.unique m.walks
  exact ⟨f, u, hf, henv.symm, hstate ▸ hstep, hclean⟩

/-- Whatever match is lowered in a program without errors was walked. -/
theorem Lower.Visits.exists_match {p : Program Unit} {strict : Bool}
    (herrors : (p.analyze strict).hasErrors = false) {index : Nat}
    {low : Env} {place : TreePath} {draft : Draft}
    (h : Visits (p.analyze strict) index low place (.selection result (.mk span note scrutinee arms)) draft) :
    ∃ m : p.LoweredMatch strict, m.index = index ∧ m.place = place ∧ m.scrutinee = scrutinee ∧ m.arms = arms ∧
      m.draft = draft ∧ m.result = result := by
  obtain ⟨f, u, s, -, rfl, hstep⟩ := h.lockstep herrors
  obtain ⟨expected, type, s', rfl, hwalk, -⟩ := hstep.of_selection
  obtain ⟨m, hlower, -⟩ := program_lowers (Program.accepts_of_hasErrors herrors) herrors {}
  obtain ⟨-, -, -, -, -, d', hrun, -⟩ := h.doneIn hlower
  obtain ⟨v, _, hselection, -⟩ := gives_bind.1 hrun
  obtain ⟨value, -, after, -, -, -, -, -, -, hlowers, -⟩ := gives_selection hselection
  exact ⟨⟨index, place, span, note, scrutinee, arms, _, result, draft, value, after, _, expected, s, type, s', h,
    hlowers, hstep.walked, hwalk⟩, rfl, rfl, rfl, rfl, rfl, rfl⟩

/-- Whether a task is to lower a match with the given property. -/
def Lower.Task.selects (test : Ty → Expr Ty → List (Arm Ty) → Bool) : Task → Bool
  | .selection result (.mk _ _ scrutinee arms) => test result scrutinee arms
  | _ => false

/-- A match that is found where lowering comes by is one that is lowered. -/
theorem Program.LoweredMatch.exists_of_visit? {p : Program Unit} {strict : Bool}
    (herrors : (p.analyze strict).hasErrors = false) {index : Nat} {place : TreePath}
    {test : Ty → Expr Ty → List (Arm Ty) → Bool} (h :
    (visit? (p.analyze strict) index place).any (·.2.1.selects test)) :
    ∃ m : p.LoweredMatch strict, test m.result m.scrutinee m.arms = true := by
  obtain ⟨⟨env, t, d⟩, hvisit, hmatch⟩ := (Option.any_eq_true _ _).1 h
  dsimp only [Task.selects] at hmatch
  split at hmatch
  · obtain ⟨m, -, -, rfl, rfl, -, rfl⟩ := (visit?_eq_some.1 hvisit).exists_match herrors
    exact ⟨m, hmatch⟩
  · cases hmatch

end LocLang
