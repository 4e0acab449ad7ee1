import LocLang.Proofs.Lowering.Program
import LocLang.Proofs.Semantics.Instructions

namespace LocLang

open Lower List

variable {m1 : Machine}

def Fragment.eval (c : Fragment) (fuel : Nat) : Eval.Env :=
  ⟨c.enums, c.result, fuel, Eval.call c.enums c.functions fuel⟩

def Fragment.lower (c : Fragment) : Env :=
  ⟨c.enums, c.result.machine⟩

/-- Whether the machine is about to leave a function with the given value. -/
structure Machine.Returns (platform : Platform) (result : Ty) (value : Option Value) (w : World) (m m' : Machine) :
    Prop where
  callers : m'.callers = m.callers
  output : m'.output = w.output
  insts : m'.top.insts = []
  term :
    match value with
    | none => result = .void ∧ m'.top.term = .retVoid
    | some x => result.isInteger ∧ x.type.machine = result.machine ∧
        ∃ o, m'.top.term = .ret o ∧ m'.top.read platform o = .ok x.word

namespace Machine.Returns

variable {platform : Platform} {result : Ty} {x : Value} {w : World} {m m' : Machine} {caller : Activation}
  {callers : List (Option Nat × Activation)}

theorem step_void (h : m.Returns platform result none w m') (hcallers : m.callers = (none, caller) :: callers) :
    m'.step platform = .ok { m' with top := caller, callers } := by
  have hcallers' := h.callers.trans hcallers
  rw [step_of_term h.insts, h.term.2]
  simp only [finish, leave, hcallers']

theorem step_value {dst : Nat} (h : m.Returns platform result (some x) w m')
    (hcallers : m.callers = (some dst, caller) :: callers) :
    m'.step platform = .ok { m' with top := caller.set dst x.word, callers } := by
  have hcallers' := h.callers.trans hcallers
  obtain ⟨-, -, o, hterm, hread⟩ := h.term
  rw [step_of_term h.insts, hterm]
  simp only [finish, hread, bind, Except.bind, leave, hcallers']

theorem after {value : Option Value} {n : Nat} (h : m1.Returns platform result value w m')
    (hfollows : m.Follows n m1) : m.Returns platform result value w m' :=
  ⟨h.callers.trans hfollows.callers, h.output, h.insts, h.term⟩

end Machine.Returns

/-- The words of arguments in the types of the parameters. -/
def Fragment.argumentWords (c : Fragment) (params : List Param) (args : List Value) : List MachineWord :=
  zipWith (fun p v => (v.convert (c.enums.labelType (some p.label)).1).word) params args

/-- Whether the code of functions does what calls of them do with the given fuel. The machine may make one step less, as
    it has entered the function. -/
def Fragment.CallsAgree (c : Fragment) (platform : Platform) (fuel : Nat) : Prop :=
  ∀ f ∈ c.functions, ∀ args : List Value, f.params.length = args.length →
    ∃ top, Machine.activate platform f.name (c.argumentWords f.params args) = .ok top ∧
      ∀ (callers : List (Option Nat × Activation)) (w : World),
        Machine.Performs platform (fuel - 1) ⟨top, callers, w.output⟩ (Eval.call c.enums c.functions fuel f.name args) w
          fun value w' m' => w'.cells = w.cells ∧
            Machine.Returns platform (c.enums.labelType f.result).1 value w' ⟨top, callers, w.output⟩ m'

/-- What holds throughout a function: the functions of the module are those of the program and do what they say. -/
structure Site.Serves (site : Site) (platform : Platform) (c : Fragment) (fuel : Nat) : Prop where
  base : ∀ entry ∈ site.base, ∃ f, c.functions.find? (·.name = entry.name) = some f ∧
    entry.value = .function (f.signature c.enums)
  discrete : ∀ f ∈ c.functions, f.Discrete c.enums c.functions
  calls : c.CallsAgree platform fuel

namespace Site

variable {type : Ty} {env : Env}

variable {platform : Platform} {c : Fragment} {fuel n : Nat} {site : Site} {d d' : Draft} {locals : Locals} {w : World}
  {m : Machine} {v : Operand} {d1 : Draft} {u : Unit} {arms : List (Arm Ty)} {label : Label} {slot : Option Slot}

/-- Whether operands have the values of arguments in the types of the parameters. -/
inductive HoldsAll (c : Fragment) (top : Activation) (n : Nat) : List Param → List Value → List Operand → Prop where
  | nil : HoldsAll c top n [] [] []
  | cons {p : Param} {x : Value} {v : Operand} {ps : List Param} {xs : List Value} {vs : List Operand}
      (head : top.Holds n (x.convert (c.enums.labelType (some p.label)).1) v) (tail : HoldsAll c top n ps xs vs) :
      HoldsAll c top n (p :: ps) (x :: xs) (v :: vs)

namespace HoldsAll

variable {ps : List Param} {xs : List Value} {vs : List Operand}

theorem length_eq {top : Activation} (h : HoldsAll c top n ps xs vs) : ps.length = xs.length := by
  induction h with
  | nil => rfl
  | cons _ _ ih => rw [length_cons, length_cons, ih]

theorem readAll_eq {top : Activation} (platform : Platform) (h : HoldsAll c top n ps xs vs) :
    top.readAll platform vs = .ok (c.argumentWords ps xs) := by
  induction h with
  | nil => rfl
  | cons head _ ih =>
    simp only [Activation.readAll, head.read_eq platform, ih, bind, Except.bind]
    rfl

theorem skip (h : HoldsAll c m.top n ps xs vs) (rest : List Inst) : HoldsAll c (m.skip rest).top n ps xs vs := by
  induction h with
  | nil => exact .nil
  | cons head _ ih => exact .cons (head.skip rest) ih

theorem follow {m' : Machine} {n' : Nat} (h : HoldsAll c m.top n ps xs vs) (hfollows : m.Follows n m') (hle : n ≤ n') :
    HoldsAll c m'.top n' ps xs vs := by
  induction h with
  | nil => exact .nil
  | cons head _ ih => exact .cons (head.follow hfollows hle) ih

end HoldsAll

def arguments (c : Fragment) (ps : List Param) (xs : List Value) (vs : List Operand) : Held :=
  ⟨fun m n => HoldsAll c m.top n ps xs vs, HoldsAll.follow⟩

/-- A call of a function with arguments that are there. -/
theorem Evaluates.call {K : Held} {f : FuncDef Ty} {xs : List Value} {vs : List Operand}
    (hserves : site.Serves platform c fuel) (hf : f ∈ c.functions) :
    site.Evaluates platform fuel locals (K.and (arguments c f.params xs vs)) (Lower.call (f.signature c.enums) vs)
      (do return (← Eval.call c.enums c.functions fuel f.name xs).getD .nothing) fun v x => .value x v := by
  refine ⟨.call _ _, fun {w d d' m v} hgives hcovers h hK => ?_⟩
  have hargs : HoldsAll c m.top d.registers f.params xs vs := hK.2
  obtain ⟨top, hactivate, hperforms⟩ := hserves.calls f hf xs hargs.length_eq
  rw [FuncDef.signature_eq, Lower.call] at hgives
  split at hgives
  · rename_i hvoid
    obtain ⟨_, hemit, rfl⟩ := gives_map.1 hgives
    obtain ⟨rest, hinsts, hat⟩ := h.here.emit hemit hcovers
    obtain ⟨b, hb, rfl⟩ := gives_emit.1 hemit
    have hstep : m.step platform = .ok ⟨top, (none, (m.skip rest).top) :: m.callers, w.output⟩ := by
      rw [Machine.step_of_insts hinsts]
      simp only [Machine.execute, (hargs.skip rest).readAll_eq platform, hactivate, bind, Except.bind,
        ← h.agrees.output]
      rfl
    refine .of_step hstep (.bind (hperforms _ w) ?_)
    rintro value w' m' ⟨hcells, hreturns⟩
    cases value with
    | some => exact absurd hvoid (Ty.machine_ne_void_of_isInteger hreturns.term.1)
    | none =>
      have hfollows : m.Follows d.registers { m' with top := (m.skip rest).top, callers := m.callers } :=
        ⟨rfl, rfl, rfl, fun _ _ => rfl⟩
      refine .of_step (hreturns.step_void rfl) (.pure ⟨⟨hat _ rfl rfl, ?_⟩, hfollows, rfl⟩)
      exact h.agrees.follow hfollows (fun _ hslot => hslot) (fun _ _ _ => rfl) hreturns.output hcells rfl
        (Nat.le_refl _) (Nat.le_refl _)
  · rename_i hvoid
    obtain ⟨rest, hinsts, hat⟩ := h.next hgives hcovers
    obtain ⟨b, hb, rfl, rfl⟩ := gives_emitValue.1 hgives
    have hstep : m.step platform = .ok ⟨top, (some d.registers, (m.skip rest).top) :: m.callers, w.output⟩ := by
      rw [Machine.step_of_insts hinsts]
      simp only [Machine.execute, (hargs.skip rest).readAll_eq platform, hactivate, bind, Except.bind,
        ← h.agrees.output]
      rfl
    refine .of_step hstep (.bind (hperforms _ w) ?_)
    rintro value w' m' ⟨hcells, hreturns⟩
    cases value with
    | none => exact absurd (congrArg Ty.machine hreturns.term.1) hvoid
    | some x =>
      have hfollows : m.Follows d.registers
          { m' with top := (m.skip rest).top.set d.registers x.word, callers := m.callers } :=
        ⟨rfl, rfl, rfl, fun i hi => if_neg (Nat.ne_of_lt hi)⟩
      refine .of_step (hreturns.step_value rfl) (.pure ⟨⟨hat _ rfl rfl, ?_⟩, hfollows, ?_⟩)
      · exact h.agrees.follow hfollows (fun _ hslot => hslot) (fun _ _ _ => rfl) hreturns.output hcells rfl
          (Nat.le_succ _) (Nat.le_refl _)
      · exact ⟨hreturns.term.2.1.symm, Nat.lt_succ_self _, if_pos rfl⟩

/-- Whether the machine is at the start of a block and agrees with a run from the tree, in which the names are those of
    a draft. -/
structure Arrives (site : Site) (label : Label) (locals : Locals) (w : World) (d : Draft) (m : Machine) : Prop where
  enters : site.Enters label m.top
  agrees : site.Agrees locals w d m

/-- A block that is opened in a draft can be entered. -/
theorem has_of_place {d d' : Draft} (h : (place label).Gives d u d') (hcovers : site.Covers d')
    (hlabel : label ≠ .entry) : site.Has label := by
  obtain ⟨-, rfl⟩ := gives_place.1 h
  exact ⟨hlabel, _, hcovers, rfl⟩

/-- The machine at the start of a block is where the draft opens it. -/
theorem Arrives.place (h : site.Arrives label locals w d m) (hbeyond : d.Beyond d1)
    (hgives : (place label).Gives d1 u d') : site.State locals w d' m := by
  have hagrees := h.agrees.beyond (hbeyond.trans (beyond_place hgives))
  obtain ⟨-, rfl⟩ := gives_place.1 hgives
  exact ⟨h.enters.at rfl, hagrees⟩

/-- The machine leaves a block that ends with a jump. -/
theorem State.leave (platform : Platform) (h : site.State locals w d m)
    (hgives : (terminateIfOpen (.br label)).Gives d u d')
    (hcovers : site.Covers d') (hlabel : site.Has label) :
    ∃ m', m.step platform = .ok m' ∧ site.Arrives label locals w d' m' ∧ m.Follows d.registers m' ∧
      m'.top.memory = m.top.memory := by
  have hbeyond := (Steady.terminateIfOpen _).beyond (.terminateIfOpen _) hgives
  obtain ⟨b, block, hb, -⟩ := h.here
  have hterminate : (terminate (.br label)).Gives d u d' := by
    refine (gives_terminateIfOpen.1 hgives).resolve_right ?_
    simp [hb]
  obtain ⟨insts, term, hstep, henters⟩ := h.br platform hterminate hcovers hlabel
  exact ⟨_, hstep, ⟨henters, (h.agrees.goto insts term).beyond hbeyond⟩, m.follows_goto _ insts term, rfl⟩

/-- Whether the machine does what a run of a statement does, which ends as in `Q`. -/
structure Executes {β : Type} (site : Site) (platform : Platform) (fuel : Nat) (locals : Locals) (x : Lower Unit)
    (e : Eval β) (Q : Draft → Draft → Machine → β → World → Machine → Prop) : Prop where
  performs : ∀ {d d' : Draft} {w : World} {m : Machine}, x.Gives d () d' → site.Covers d' → site.State locals w d m →
    m.Performs platform fuel e w (Q d d' m)

/-- Whether a statement ends in the machine as it does in a run from the tree. -/
def Flows (site : Site) (platform : Platform) (result : Ty) (locals : Locals) (d d' : Draft) (m : Machine) (flow : Flow)
    (w : World) (m' : Machine) : Prop :=
  match flow with
  | .next locals' => locals <:+ locals' ∧ site.State locals' w d' m' ∧ m.Follows d.registers m'
  | .ret value => m.Returns platform result value w m'

/-- Whether a statement that declares nothing ends in the machine as it does in a run from the tree. -/
def Ends (site : Site) (platform : Platform) (result : Ty) (locals : Locals) (d d' : Draft) (m : Machine) (flow : Flow)
    (w : World) (m' : Machine) : Prop :=
  match flow with
  | .next locals' => locals' = locals ∧ site.State locals w d' m' ∧ m.Follows d.registers m'
  | .ret value => m.Returns platform result value w m'

theorem Ends.flows {result : Ty} {flow : Flow} {m' : Machine} (h : site.Ends platform result locals d d' m flow w m') :
    site.Flows platform result locals d d' m flow w m' := by
  cases flow with
  | next =>
    obtain ⟨rfl, hstate, hfollows⟩ := h
    exact ⟨suffix_rfl, hstate, hfollows⟩
  | ret => exact h

theorem Executes.flows {result : Ty} {x : Lower Unit} {e : Eval Flow}
    (h : site.Executes platform fuel locals x e (site.Ends platform result locals)) :
    site.Executes platform fuel locals x e (site.Flows platform result locals) :=
  ⟨fun hgives hcovers hstate => (h.performs hgives hcovers hstate).mono fun _ _ _ hm' => hm'.flows⟩

/-- One branch of several that go on together. -/
theorem Ends.join {result : Ty} {flow : Flow} {d2 d3 d4 : Draft} {m' : Machine} {u' : Unit}
    (h : site.Ends platform result locals d1 d2 m1 flow w m') (hfollows : m.Follows d.registers m1)
    (hle : d.registers ≤ d1.registers) (honward : d1.Grows d2) (hleave : (terminateIfOpen (.br label)).Gives d2 u d3)
    (hbeyond : d3.Beyond d4) (hplace : (place label).Gives d4 u' d') (hcovers : site.Covers d')
    (hlabel : label ≠ .entry) : m'.Reaches platform (site.Ends platform result locals d d' m flow w) := by
  cases flow with
  | next =>
    obtain ⟨rfl, hstate, hfollows'⟩ := h
    have hcovers3 := hcovers.of_grows (hbeyond.toGrows.trans ((Grows.place _).draft hplace))
    obtain ⟨m'', hstep, harrives, hfollows'', -⟩ :=
      hstate.leave platform hleave hcovers3 (has_of_place hplace hcovers hlabel)
    have hle' := Nat.le_trans hle honward.registers
    exact .of_step hstep (.refl ⟨rfl, harrives.place hbeyond hplace,
      (hfollows.trans hfollows' hle).trans hfollows'' hle'⟩)
  | ret => exact .refl (h.after hfollows)

/-- Whether an arm ends in the machine as it does in a run from the tree: with the value kept, with the function left,
    or neither. In a match with a value every arm has one. -/
def Outcome (platform : Platform) (result type : Ty) (valued : Bool) (slot : Option Slot) (m : Machine)
    (falls : World → Machine → Prop) : ArmEnd → World → Machine → Prop
  | .value x, w, m' => falls w m' ∧ m'.Stores (Eval.matchValue type x) slot
  | .flow (.next _), w, m' => ¬valued ∧ falls w m'
  | .flow (.ret value), w, m' => ¬valued ∧ m.Returns platform result value w m'

/-- After an arm the machine may go on, as long as it stores nothing. -/
theorem Outcome.reaches {result : Ty} {valued : Bool} {falls falls' : World → Machine → Prop} {e : ArmEnd}
    {m' : Machine} (h : Outcome platform result type valued slot m1 falls e w m') (hfollows : m.Follows n m1)
    (hfalls : falls w m' → m'.Reaches platform fun m'' => falls' w m'' ∧ m''.top.memory = m'.top.memory) :
    m'.Reaches platform (Outcome platform result type valued slot m falls' e w) := by
  cases e with
  | value =>
    refine (hfalls h.1).mono fun m'' h'' => ⟨h''.1, ?_⟩
    cases slot with
    | none => exact h.2
    | some slot => exact ⟨h.2.1, (congrFun h''.2 slot.name).trans h.2.2⟩
  | flow f =>
    cases f with
    | next => exact (hfalls h.2).mono fun m'' h'' => ⟨h.1, h''.1⟩
    | ret => exact .refl ⟨h.1, h.2.after hfollows⟩

/-- Whether a match ends in the machine as it does in a run from the tree. -/
def Concludes (site : Site) (platform : Platform) (result type : Ty) (valued : Bool) (locals : Locals) (d d' : Draft)
    (m : Machine) (v : Operand) : ArmEnd → World → Machine → Prop
  | .value x, w, m' => site.Yields locals w d d' m m' (.value (Eval.matchValue type x) v)
  | .flow (.next _), w, m' => ¬valued ∧ site.State locals w d' m' ∧ m.Follows d.registers m'
  | .flow (.ret value), w, m' => ¬valued ∧ m.Returns platform result value w m'

/-- The drafts of an arm are on the way to the end of the function if the draft after the arms is. -/
theorem Covers.of_arm {k : Nat} {arm : Arm Ty} {cond : Operand} {d2 d3 d4 d5 d6 : Draft}
    (hcovers : site.Covers d') (hpattern : (patternTest env.enums v arm.pattern).Gives d1 cond d2)
    (hbr : (terminate (.condBr cond (.matchArm n k) (nextTest n (k + 1) arms))).Gives d2 () d3)
    (harm : (place (.matchArm n k)).Gives d3 () d4) (hbody : (armBody env slot arm).Gives d4 () d5)
    (hleave : (terminateIfOpen (.br (.matchEnd n))).Gives d5 () d6)
    (hrest : (armList env n v slot (k + 1) arms).Gives { d6 with scopes := d6.scopes.pop } () d') :
    site.Covers d1 ∧ site.Covers d2 ∧ site.Covers d3 ∧ site.Covers d4 ∧ site.Covers d5 ∧
      site.Covers d6 := by
  have honward2 := (Grows.patternTest _ _ _).draft hpattern
  have honward3 := (Grows.terminate _).draft hbr
  have honward4 := (Grows.place _).draft harm
  have honward5 := (armBody_grows _ _ _).draft hbody
  have honward6 := (Grows.terminateIfOpen _).draft hleave
  have hcovers7 := hcovers.of_grows (beyond_armList hrest).toGrows
  have hcovers6 := hcovers7.of_grows (Grows.popScope.draft ((gives_popScope (u := ())).2 rfl))
  have hcovers5 := hcovers6.of_grows honward6
  have hcovers4 := hcovers5.of_grows honward5
  have hcovers3 := hcovers4.of_grows honward4
  have hcovers2 := hcovers3.of_grows honward3
  exact ⟨hcovers2.of_grows honward2, hcovers2, hcovers3, hcovers4, hcovers5, hcovers6⟩

/-- The arms of a match can be entered one after another. -/
theorem has_nextTest {k : Nat} (h : (armList env n v slot k arms).Gives d u d') (hcovers : site.Covers d')
    (hfail : site.Has (.matchFail n)) : site.Has (nextTest n k arms) := by
  cases arms with
  | nil => exact hfail
  | cons =>
    obtain ⟨cond, d1, d2, d3, d4, d5, d6, htest, hpattern, hbr, harm, hbody, hleave, hrest⟩ :=
      gives_armList_cons h
    have hcovers1 := (hcovers.of_arm hpattern hbr harm hbody hleave hrest).1
    show site.Has (.matchTest n k)
    exact has_of_place htest hcovers1 (by simp)

/-- What surrounds the arms of a match: the slot for its value, the block for when no arm matches and the block after
    it. -/
structure Frames (site : Site) (n : Nat) (type : Ty) : Prop where
  slots : (slotFor n type).toList ⊆ site.draft.slots
  fails : site.Has (.matchFail n)
  unreachable : ∀ top, site.Enters (.matchFail n) top → top.insts = [] ∧ top.term = .unreachable
  ends : site.Has (.matchEnd n)

theorem frames_of_gives {d2 d3 d4 : Draft} (hslots : (slotFor n type).toList ⊆ site.draft.slots)
    (hfail : (place (.matchFail n)).Gives d1 () d2) (hunreachable : (terminate .unreachable).Gives d2 () d3)
    (hend : (place (.matchEnd n)).Gives d3 () d4) (hcovers : site.Covers d4) : site.Frames n type := by
  have hcovers3 := hcovers.of_grows ((Grows.place _).draft hend)
  have hcovers2 := hcovers3.of_grows ((Grows.terminate _).draft hunreachable)
  refine ⟨hslots, has_of_place hfail hcovers2 (by simp), ?_, has_of_place hend hcovers (by simp)⟩
  rintro top ⟨block, hblock, hlabel, hinsts, hterm⟩
  obtain ⟨-, rfl⟩ := gives_place.1 hfail
  obtain ⟨b, hb, rfl⟩ := gives_terminate.1 hunreachable
  cases hb
  have hmem : (⟨.matchFail n, [], .unreachable⟩ : IrBlock) ∈ site.draft.closed :=
    hcovers3.within.closed (by simp [OpenBlock.close])
  obtain rfl := eq_of_label hblock hmem hlabel
  exact ⟨hinsts, hterm⟩

/-- Nothing is defined if no arm matches. -/
theorem Frames.undefined {α : Type} {Q : α → World → Machine → Prop} (h : site.Frames n type)
    (harrives : site.Arrives (.matchFail n) locals w d m) : m.Performs platform fuel (throw .undefined) w Q := by
  obtain ⟨hinsts, hterm⟩ := h.unreachable m.top harrives.enters
  refine .undefined ?_ harrives.agrees.output
  rw [Machine.step_of_term hinsts, hterm]
  rfl

/-- Whether the machine does what a run of the arms of a match does, from a given one on. -/
structure Selects (site : Site) (platform : Platform) (c : Fragment) (fuel : Nat) (locals : Locals) (type : Ty)
    (valued : Bool) (k : Nat) (arms : List (Arm Ty)) : Prop where
  performs : ∀ {n : Nat} {d d' : Draft} {w : World} {m : Machine} {x : Value} {v : Operand},
    (armList c.lower n v (slotFor n type) k arms).Gives d () d' → site.Covers d' →
      site.Frames n type → site.Arrives (nextTest n k arms) locals w d m → m.top.Holds d.registers x v →
        m.Performs platform fuel (Eval.armList (c.eval fuel) locals x arms) w
          (Outcome platform c.result type valued (slotFor n type) m fun w' m' =>
            site.Arrives (.matchEnd n) locals w' d' m' ∧ m.Follows d.registers m')

/-- A match, if its arms are run by the machine. -/
theorem State.select {note : Ty} {valued : Bool} {span : Span} {scrutinee : Expr Ty} (h : site.State locals w d m)
    (htype : ¬valued → type = .void) (hgives : (selection c.lower type (.mk span note scrutinee arms)).Gives d v d')
    (hcovers : site.Covers d') (hscrutinee : site.Evaluates platform fuel locals .none (expr c.lower scrutinee)
      (Eval.expr (c.eval fuel) locals scrutinee) fun v x => .value x v)
    (harms : site.Selects platform c fuel locals type valued 0 arms) :
    m.Performs platform fuel (Eval.expr (c.eval fuel) locals scrutinee >>= fun x =>
      Eval.armList (c.eval fuel) locals x arms)
      w (site.Concludes platform c.result type valued locals d d' m v) := by
  obtain ⟨v1, slot, d1, d2, d3, d4, d5, d6, d7, hvalue, hslot, hbr, harmList, hfail, hunreachable, hend, hload⟩ :=
    gives_selection hgives
  obtain ⟨rfl, rfl⟩ := gives_resultSlot hslot
  have hbeyond1 := (expr_steady _ _).beyond (expr_grows _ _) hvalue
  have hbeyond3 := (Steady.terminate _).beyond (.terminate _) hbr
  have hbeyond4 := beyond_armList harmList
  have hbeyond5 := beyond_place hfail
  have hbeyond6 := (Steady.terminate _).beyond (.terminate _) hunreachable
  have hcovers7 := hcovers.of_grows ((Grows.loadResult _).draft hload)
  have hcovers6 := hcovers7.of_grows ((Grows.place _).draft hend)
  have hcovers5 := hcovers6.of_grows hbeyond6.toGrows
  have hcovers4 := hcovers5.of_grows hbeyond5.toGrows
  have hcovers3 := hcovers4.of_grows hbeyond4.toGrows
  have hcovers2 := hcovers3.of_grows hbeyond3.toGrows
  have hframes : site.Frames d.labels type :=
    frames_of_gives (fun s hs => hcovers2.slots.subset (mem_append_right _ hs)) hfail hunreachable hend hcovers7
  have h0 : site.State locals w { d with labels := d.labels + 1 } m := h.of_eq rfl rfl rfl prefix_rfl
  have hcovers1 : site.Covers d1 :=
    ⟨⟨hcovers2.within.closed, hcovers2.within.current⟩, (prefix_append _ _).trans hcovers2.slots⟩
  refine (hscrutinee.start hvalue hcovers1 h0).bind fun x w1 m1 h1 => ?_
  have h2 : site.State locals w1 { d1 with slots := d1.slots ++ (slotFor d.labels type).toList } m1 :=
    h1.state.of_eq rfl rfl rfl (prefix_append _ _)
  obtain ⟨insts, term, hstep, henters⟩ :=
    h2.br platform hbr hcovers3 (has_nextTest harmList hcovers4 hframes.fails)
  have hholds := Activation.Holds.follow h1.holds (m1.follows_goto _ insts term) hbeyond3.registers
  have hfollows : m.Follows d.registers (m1.goto insts term) :=
    h1.follows.trans (m1.follows_goto d1.registers insts term) hbeyond1.registers
  have harrives : site.Arrives (nextTest d.labels 0 arms) locals w1 d3 (m1.goto insts term) :=
    ⟨henters, (h2.agrees.goto insts term).beyond hbeyond3⟩
  refine (Machine.Performs.of_step hstep ((harms.performs harmList hcovers4 hframes harrives hholds).of_le
    (Nat.sub_le fuel 1))).reaches fun e w' m' he => ?_
  have hle : d.registers ≤ d3.registers := Nat.le_trans hbeyond1.registers hbeyond3.registers
  have hbeyond := hbeyond5.trans hbeyond6
  cases e with
  | value =>
    obtain ⟨⟨harrives, hfollows'⟩, hstores⟩ := he
    have hstate := harrives.place hbeyond hend
    have honward := hbeyond4.toGrows.trans (hbeyond.toGrows.trans ((Grows.place _).draft hend))
    refine (hstate.loadResult hstores hload hcovers).mono fun m'' h'' => ?_
    exact h''.after (hfollows.trans hfollows' hle) (Nat.le_trans hle honward.registers)
  | flow f =>
    cases f with
    | next =>
      obtain ⟨hvalued, harrives, hfollows'⟩ := he
      have hstate := harrives.place hbeyond hend
      rw [htype hvalued] at hload
      obtain ⟨-, rfl⟩ := gives_pure.1 hload
      exact .refl ⟨hvalued, hstate, hfollows.trans hfollows' hle⟩
    | ret => exact .refl ⟨he.1, he.2.after hfollows⟩

theorem Executes.numbered {result : Ty} {x : Nat → Lower Unit} {e : Eval Flow}
    (hx : ∀ n, site.Executes platform fuel locals (x n) e (site.Ends platform result locals)) :
    site.Executes platform fuel locals (nextLabel >>= x) e (site.Ends platform result locals) := by
  refine ⟨fun {d d' w m} hgives hcovers h => ?_⟩
  obtain ⟨n, d0, hlabel, hgives⟩ := gives_bind.1 hgives
  obtain ⟨rfl, rfl⟩ := gives_nextLabel.1 hlabel
  have hperforms := (hx _).performs hgives hcovers (h.of_eq rfl rfl rfl prefix_rfl)
  exact hperforms

/-- Whether drafts are those between the parts of code that is run where a condition holds: before the condition, after
    it, in the block of the body, at the end of the body and after it. -/
structure Guard (env : Env) (condition : Expr Ty) (body : Lower Unit) (ifTrue ifFalse target : Label)
    (d d1 d2 d3 d4 : Draft) : Prop where
  test : ∃ v e cond e', (expr env condition).Gives d v e ∧ (convert v .i1).Gives e cond e' ∧
    (terminate (.condBr cond ifTrue ifFalse)).Gives e' () d1
  enter : (place ifTrue).Gives d1 () d2
  body : body.Gives d2 () d3
  leave : (terminateIfOpen (.br target)).Gives d3 () d4
  tested : d.Beyond d1
  entered : d1.Beyond d2
  ran : d2.Beyond d3
  left : d3.Beyond d4

section Guard

variable {condition : Expr Ty} {body : Lower Unit} {ifTrue ifFalse target : Label} {d2 d3 d4 : Draft}

theorem exists_guard {rest : Lower Unit} (hbody : ∀ {d d' : Draft}, body.Gives d () d' → d.Beyond d')
    (h : (do
      let cond ← expr env condition
      let cond ← convert cond .i1
      terminate (.condBr cond ifTrue ifFalse)
      place ifTrue
      body
      terminateIfOpen (.br target)
      rest).Gives d () d') :
    ∃ d1 d2 d3 d4, Guard env condition body ifTrue ifFalse target d d1 d2 d3 d4 ∧ rest.Gives d4 () d' := by
  obtain ⟨v, e, hvalue, h⟩ := gives_bind.1 h
  obtain ⟨cond, e', hconvert, h⟩ := gives_bind.1 h
  obtain ⟨_, d1, hbranch, h⟩ := gives_bind.1 h
  obtain ⟨_, d2, henter, h⟩ := gives_bind.1 h
  obtain ⟨_, d3, hrun, h⟩ := gives_bind.1 h
  obtain ⟨_, d4, hleave, h⟩ := gives_bind.1 h
  have hbeyond := (expr_steady _ _).beyond (expr_grows _ _) hvalue
  have hbeyond' := (Steady.convert _ _).beyond (.convert _ _) hconvert
  have htested := hbeyond.trans (hbeyond'.trans ((Steady.terminate _).beyond (.terminate _) hbranch))
  exact ⟨d1, d2, d3, d4, ⟨⟨v, e, cond, e', hvalue, hconvert, hbranch⟩, henter, hrun, hleave, htested,
    beyond_place henter, hbody hrun, (Steady.terminateIfOpen _).beyond (.terminateIfOpen _) hleave⟩, h⟩

variable (hcondition : site.Evaluates platform fuel locals .none (expr c.lower condition)
    (Eval.expr (c.eval fuel) locals condition) fun v x => .value x v)

include hcondition in
/-- The machine comes to the body, or passes it by. -/
theorem Guard.decides (hguard : Guard c.lower condition body ifTrue ifFalse target d d1 d2 d3 d4)
    (hcovers : site.Covers d4) (hentry : ifTrue ≠ .entry) (hifFalse : site.Has ifFalse) (h : site.State locals w d m) :
    m.Performs platform fuel (Eval.expr (c.eval fuel) locals condition) w fun x w' m' => m.Follows d.registers m' ∧
      if x.toInt = 0 then site.Arrives ifFalse locals w' d1 m' else site.State locals w' d2 m' := by
  obtain ⟨v, e, cond, e', hvalue, hconvert, hgives⟩ := hguard.test
  have hbeyond := (Steady.terminate _).beyond (.terminate _) hgives
  have honward := (Grows.convert _ _).draft hconvert
  have hcovers2 := hcovers.of_grows (hguard.ran.trans hguard.left).toGrows
  have hcovers1 := hcovers2.of_grows hguard.entered.toGrows
  have hcovers' := hcovers1.of_grows hbeyond.toGrows
  refine (hcondition.start hvalue (hcovers'.of_grows honward) h).reaches fun x w1 m1 h1 => ?_
  refine (h1.state.convert (t := .bool) h1.holds rfl hconvert hcovers').trans fun m2 h2 => ?_
  obtain ⟨insts, term, hstep, henters⟩ :=
    h2.state.condBr platform h2.holds hgives hcovers1 (has_of_place hguard.enter hcovers2 hentry) hifFalse
  have hfollows := h2.follows.trans (m2.follows_goto e'.registers insts term) honward.registers
  have hagrees := (h2.state.agrees.goto insts term).beyond hbeyond
  refine .of_step hstep (.refl ⟨h1.follows.trans hfollows (hcondition.grows.draft hvalue).registers, ?_⟩)
  by_cases hx : x.toInt = 0
  · rw [if_pos hx]
    exact ⟨by simpa [hx] using henters, hagrees⟩
  · rw [if_neg hx]
    exact Arrives.place ⟨by simpa [hx] using henters, hagrees⟩ (.refl _) hguard.enter

/-- The body of a guard, after which the code goes on where the guard is passed by. -/
theorem Guard.performs (hguard : Guard c.lower condition body ifTrue ifFalse target d d1 d2 d3 d4) {run : Eval Flow}
    (hbody : site.Executes platform fuel locals body run (site.Ends platform c.result locals)) {m2 : Machine}
    {d5 : Draft} (h : site.State locals w d2 m2) (hfollows : m.Follows d.registers m2) (hbeyond : d4.Beyond d5)
    (hplace : (place target).Gives d5 u d') (hcovers : site.Covers d') (hentry : target ≠ .entry) :
    m2.Performs platform fuel run w (site.Ends platform c.result locals d d' m) := by
  have hcovers3 := hcovers.of_grows ((hguard.left.trans hbeyond).toGrows.trans ((Grows.place _).draft hplace))
  have hle := (hguard.tested.trans hguard.entered).registers
  exact (hbody.performs hguard.body hcovers3 h).reaches fun flow w' m' hm' =>
    hm'.join hfollows hle hguard.ran.toGrows hguard.leave hbeyond hplace hcovers hentry

include hcondition

/-- A condition with one branch, if the machine runs it. -/
theorem Executes.only {run : Eval Flow}
    (hbodyBeyond : ∀ {d d' : Draft}, body.Gives d () d' → d.Beyond d')
    (hbody : site.Executes platform fuel locals body run (site.Ends platform c.result locals)) :
    site.Executes platform fuel locals (do
      let n ← nextLabel
      let cond ← expr c.lower condition
      let cond ← convert cond .i1
      terminate (.condBr cond (.ifThen n) (.ifEnd n))
      place (.ifThen n)
      body
      terminateIfOpen (.br (.ifEnd n))
      place (.ifEnd n))
      (do if (← Eval.expr (c.eval fuel) locals condition).toInt = 0 then return .next locals else run)
      (site.Ends platform c.result locals) := by
  refine .numbered fun n => ⟨fun {d d' w m} hgives hcovers h => ?_⟩
  obtain ⟨d1, d2, d3, d4, hguard, hend⟩ := exists_guard hbodyBeyond hgives
  have hcovers4 := hcovers.of_grows ((Grows.place _).draft hend)
  refine (hguard.decides hcondition hcovers4 (by simp) (has_of_place hend hcovers (by simp)) h).bind fun x w1 m1 h1 =>
    ?_
  obtain ⟨hfollows, h1⟩ := h1
  by_cases hx : x.toInt = 0
  · rw [if_pos hx] at h1 ⊢
    exact .pure ⟨rfl, h1.place (hguard.entered.trans (hguard.ran.trans hguard.left)) hend, hfollows⟩
  · rw [if_neg hx] at h1 ⊢
    exact hguard.performs hbody h1 hfollows (.refl _) hend hcovers (by simp)

/-- A condition with two branches, if the machine runs them. -/
theorem Executes.fork {other : Lower Unit} {runBody runOther : Eval Flow}
    (hbodyBeyond : ∀ {d d' : Draft}, body.Gives d () d' → d.Beyond d')
    (hbody : site.Executes platform fuel locals body runBody (site.Ends platform c.result locals))
    (hotherBeyond : ∀ {d d' : Draft}, other.Gives d () d' → d.Beyond d')
    (hother : site.Executes platform fuel locals other runOther (site.Ends platform c.result locals)) :
    site.Executes platform fuel locals (do
      let n ← nextLabel
      let cond ← expr c.lower condition
      let cond ← convert cond .i1
      terminate (.condBr cond (.ifThen n) (.ifElse n))
      place (.ifThen n)
      body
      terminateIfOpen (.br (.ifEnd n))
      place (.ifElse n)
      other
      terminateIfOpen (.br (.ifEnd n))
      place (.ifEnd n))
      (do if (← Eval.expr (c.eval fuel) locals condition).toInt = 0 then runOther else runBody)
      (site.Ends platform c.result locals) := by
  refine .numbered fun n => ⟨fun {d d' w m} hgives hcovers h => ?_⟩
  obtain ⟨d1, d2, d3, d4, hguard, hgives⟩ := exists_guard hbodyBeyond hgives
  obtain ⟨_, d5, helse, hgives⟩ := gives_bind.1 hgives
  obtain ⟨_, d6, hotherGives, hgives⟩ := gives_bind.1 hgives
  obtain ⟨_, d7, hleave, hend⟩ := gives_bind.1 hgives
  have hbeyond5 := beyond_place helse
  have hbeyond6 := hotherBeyond hotherGives
  have hbeyond7 := (Steady.terminateIfOpen _).beyond (.terminateIfOpen _) hleave
  have hcovers6 := (hcovers.of_grows ((Grows.place _).draft hend)).of_grows hbeyond7.toGrows
  have hcovers5 := hcovers6.of_grows hbeyond6.toGrows
  have hcovers4 := hcovers5.of_grows hbeyond5.toGrows
  refine (hguard.decides hcondition hcovers4 (by simp) (has_of_place helse hcovers5 (by simp)) h).bind fun x w1 m1 h1 =>
    ?_
  obtain ⟨hfollows, h1⟩ := h1
  by_cases hx : x.toInt = 0
  · rw [if_pos hx] at h1 ⊢
    have hbeyond := hguard.entered.trans (hguard.ran.trans hguard.left)
    have hle := (hguard.tested.trans (hbeyond.trans hbeyond5)).registers
    exact (hother.performs hotherGives hcovers6 (h1.place hbeyond helse)).reaches fun flow w' m' hm' =>
      hm'.join hfollows hle hbeyond6.toGrows hleave (.refl _) hend hcovers (by simp)
  · rw [if_neg hx] at h1 ⊢
    exact hguard.performs hbody h1 hfollows (hbeyond5.trans (hbeyond6.trans hbeyond7)) hend hcovers (by simp)

/-- A loop, if the machine runs its body. -/
theorem Executes.loop {body : Block Ty} {span : Span}
    (hbody : site.Executes platform fuel locals (block c.lower body) (Eval.block (c.eval fuel) locals body)
      (site.Ends platform c.result locals)) : site.Executes platform fuel locals
        (statement c.lower (.loop span condition body))
      (Eval.statement (c.eval fuel) locals (.loop span condition body)) (site.Ends platform c.result locals) := by
  refine .numbered fun n => ⟨fun {d d' w m} hgives hcovers h => ?_⟩
  obtain ⟨_, d1, hstart, hgives⟩ := gives_bind.1 hgives
  obtain ⟨_, d2, hcond, hgives⟩ := gives_bind.1 hgives
  obtain ⟨d3, d4, d5, d6, hguard, hend⟩ := exists_guard
    (fun h => (block_steady _ _).beyond (block_grows _ _) h) hgives
  have hbeyond1 := (Steady.terminate _).beyond (.terminate _) hstart
  have hbeyond2 := beyond_place hcond
  have hbeyond3 := hguard.entered.trans (hguard.ran.trans hguard.left)
  have hcovers6 := hcovers.of_grows ((Grows.place _).draft hend)
  have hcovers2 := hcovers6.of_grows (hguard.tested.trans hbeyond3).toGrows
  have hcondHas := has_of_place hcond hcovers2 (by simp)
  obtain ⟨insts, term, hstep, henters⟩ := h.br platform hstart (hcovers2.of_grows hbeyond2.toGrows) hcondHas
  have hagrees1 := (h.agrees.goto insts term).beyond hbeyond1
  let atCondition (w' : World) (m' : Machine) : Prop :=
    site.Arrives (.whileCond n) locals w' d1 m' ∧ m.Follows d.registers m'
  let atBody (w' : World) (m' : Machine) : Prop :=
    site.State locals w' d4 m' ∧ m.Follows d.registers m'
  let atEnd (w' : World) (m' : Machine) : Prop :=
    site.Arrives (.whileEnd n) locals w' d3 m' ∧ m.Follows d.registers m'
  have hle2 : d.registers ≤ d2.registers := (hbeyond1.trans hbeyond2).registers
  have hle4 : d.registers ≤ d4.registers := Nat.le_trans hle2 (hguard.tested.trans hguard.entered).registers
  have hdecides (w' : World) (m' : Machine) (h' : atCondition w' m') :
      m'.Performs platform fuel (Eval.expr (c.eval fuel) locals condition) w' fun x w'' m'' =>
        if x.toInt = 0 then atEnd w'' m'' else atBody w'' m'' := by
    obtain ⟨harrives, hfollows⟩ := h'
    refine (hguard.decides hcondition hcovers6 (by simp) (has_of_place hend hcovers (by simp))
      (harrives.place (.refl _) hcond)).mono fun x w1 m1 h1 => ?_
    have hfollows1 := hfollows.trans h1.1 hle2
    by_cases hx : x.toInt = 0
    · rw [if_pos hx] at h1 ⊢
      exact ⟨h1.2, hfollows1⟩
    · rw [if_neg hx] at h1 ⊢
      exact ⟨h1.2, hfollows1⟩
  have hrepeats (w' : World) (m' : Machine) (h' : atBody w' m') :
      m'.Performs platform fuel (Eval.block (c.eval fuel) locals body) w' fun flow w'' m'' =>
        match flow with
        | .next _ => ∃ m1, m''.step platform = .ok m1 ∧ atCondition w'' m1
        | .ret value => m.Returns platform c.result value w'' m'' := by
    obtain ⟨hstate, hfollows⟩ := h'
    refine (hbody.performs hguard.body (hcovers6.of_grows hguard.left.toGrows) hstate).mono fun flow w1 m1 h1 => ?_
    cases flow with
    | next =>
      obtain ⟨rfl, hstate, hfollows1⟩ := h1
      obtain ⟨m2, hstep', harrives', hfollows2, -⟩ := hstate.leave platform hguard.leave hcovers6 hcondHas
      -- The names are those of the draft before the condition again.
      have hbeyond := hbeyond2.trans (hguard.tested.trans hbeyond3)
      refine ⟨m2, hstep', ⟨harrives'.enters, hagrees1.rewind harrives'.agrees hbeyond.scopes_eq⟩, ?_⟩
      exact (hfollows.trans hfollows1 hle4).trans hfollows2 (Nat.le_trans hle4 hguard.ran.registers)
    | ret => exact h1.after hfollows
  have hiterates := Machine.Performs.iterate locals (k := fuel) hdecides hrepeats (Nat.le_refl fuel)
    ⟨⟨henters, hagrees1⟩, m.follows_goto _ insts term⟩
  refine .of_step hstep ((hiterates.reaches fun flow w' m' hm' => ?_).of_le (Nat.sub_le fuel 1))
  cases flow with
  | next =>
    obtain ⟨rfl, harrives, hfollows⟩ := hm'
    exact .refl ⟨rfl, harrives.place hbeyond3 hend, hfollows⟩
  | ret => exact .refl hm'

end Guard

end Site

end LocLang
