import LocLang.Proofs.Lowering.SingleAssignment
import LocLang.Proofs.Matches.ScrutineeTypes
import LocLang.Proofs.Semantics.Instructions

namespace LocLang

open Lower List

variable {label : Label} {b : IrBlock} {g : IrFunction} {code : IrModule}

/-- The constant that a pattern compares a value with. A pattern that always matches has none. -/
def Pattern.constant? (enums : EnumTable) : Pattern → Option Constant
  | wildcard _ | bind _ _ => none
  | literal _ value => some (.ofLiteral value)
  | variant _ enumName name _ => (enums.discriminant? enumName name).map fun (n : Nat) => .int .i32 n

/-- The block that tests a pattern against a value and goes on at one of two labels. -/
def Pattern.testBlock (enums : EnumTable) (v : Operand) (p : Pattern) (label : Label) (register : Nat)
    (ifTrue ifFalse : Label) : IrBlock :=
  match p.constant? enums with
  | none => ⟨label, [], .condBr (.const (.ofBool true)) ifTrue ifFalse⟩
  | some c =>
    ⟨label, [BinaryOp.eq.inst v.type.isFloating v (.const (c.inType v.type)) register],
      .condBr (.reg register .i1) ifTrue ifFalse⟩

section TestBlock

variable (enums : EnumTable) (v : Operand) (p : Pattern) (label : Label) (register : Nat) (ifTrue ifFalse : Label)

@[simp]
theorem Pattern.label_testBlock : (p.testBlock enums v label register ifTrue ifFalse).label = label := by
  rw [testBlock]
  split <;> rfl

@[simp]
theorem Pattern.targets_testBlock : (p.testBlock enums v label register ifTrue ifFalse).term.targets =
    [ifTrue, ifFalse] := by
  rw [testBlock]
  split <;> rfl

theorem Pattern.exists_condBr_testBlock :
    ∃ cond, (p.testBlock enums v label register ifTrue ifFalse).term = .condBr cond ifTrue ifFalse := by
  rw [testBlock]
  split <;> exact ⟨_, rfl⟩

end TestBlock

namespace Lower

variable {d d' : Draft} {v cond : Operand} {enums : EnumTable}

theorem gives_equalTest {c : Constant} (hvoid : v.type ≠ .void) : (equalTest v (.const c)).Gives d cond d' ↔
      (emitValue .i1 (BinaryOp.eq.inst v.type.isFloating v (.const (c.inType v.type)))).Gives d cond d' := by
  rw [equalTest, convert_const hvoid, pure_bind]
  rfl

/-- A pattern is tested in the block that is open. -/
theorem close_of_patternTest {p : Pattern} (hvoid : v.type ≠ .void) (h : (patternTest enums v p).Gives d cond d')
    (hd : d.current = some { label }) (ifTrue ifFalse : Label) : ∃ b, d'.current = some b ∧
      b.close (.condBr cond ifTrue ifFalse) = p.testBlock enums v label d.registers ifTrue ifFalse := by
  have hequal {c : Constant} (hconstant : p.constant? enums = some c) (h : (equalTest v (.const c)).Gives d cond d') :
      ∃ b, d'.current = some b ∧
        b.close (.condBr cond ifTrue ifFalse) = p.testBlock enums v label d.registers ifTrue ifFalse := by
    obtain ⟨b, hb, rfl, rfl⟩ := gives_emitValue.1 ((gives_equalTest hvoid).1 h)
    rw [hd] at hb
    cases hb
    refine ⟨_, rfl, ?_⟩
    rw [Pattern.testBlock, hconstant]
    rfl
  cases p with
  | wildcard =>
    obtain ⟨rfl, rfl⟩ := gives_pure.1 h
    exact ⟨_, hd, rfl⟩
  | bind =>
    obtain ⟨_, d1, hdeclare, h⟩ := gives_bind.1 h
    obtain rfl := gives_declare.1 hdeclare
    obtain ⟨rfl, rfl⟩ := gives_pure.1 h
    exact ⟨_, hd, rfl⟩
  | literal => exact hequal rfl h
  | variant =>
    obtain ⟨wanted, d1, hdiscriminant, htest⟩ := gives_bind.1 h
    rw [discriminant] at hdiscriminant
    split at hdiscriminant
    · rename_i n hn
      obtain ⟨rfl, rfl⟩ := gives_pure.1 hdiscriminant
      exact hequal (by rw [Pattern.constant?, hn, Option.map_some]) htest
    · exact absurd hdiscriminant gives_fault

/-- Every arm that is lowered has its test. -/
theorem testBlock_of_armList {env : Env} {n k : Nat} {slot : Option Slot} {arms : List (Arm Ty)} {u : Unit}
    {blocks : List IrBlock} (hvoid : v.type ≠ .void) (h : (armList env n v slot k arms).Gives d u d')
    (hwithin : d'.Within blocks) {j : Nat} {arm : Arm Ty} (harm : arms[j]? = some arm) :
    ∃ register, arm.pattern.testBlock env.enums v (.matchTest n (k + j)) register (.matchArm n (k + j))
      (nextTest n (k + j + 1) (arms.drop (j + 1))) ∈ blocks := by
  induction arms generalizing k d j with
  | nil => cases harm
  | cons _ arms ih =>
    obtain ⟨cond, d1, d2, d3, d4, d5, d6, htest, hpattern, hbr, harm', hbody, hleave, hrest⟩ := gives_armList_cons h
    cases j with
    | zero =>
      cases harm
      have honward3 : d3.Grows d' :=
        ((Grows.place _).draft harm').trans <| ((armBody_grows _ _ _).draft hbody).trans <|
          ((Grows.terminateIfOpen _).draft hleave).trans <| (Draft.Grows.scopes _ _).trans <|
            (armList_grows _ _ _ _ _ _).draft hrest
      have hclosed := (honward3.within _ hwithin).closed
      obtain ⟨-, rfl⟩ := gives_place.1 htest
      obtain ⟨b, hb, hclose⟩ := close_of_patternTest hvoid hpattern rfl (.matchArm n k) (nextTest n (k + 1) arms)
      obtain ⟨b', hb', rfl⟩ := gives_terminate.1 hbr
      rw [hb] at hb'
      cases hb'
      refine ⟨d.registers, hclosed ?_⟩
      show arm.pattern.testBlock env.enums v (.matchTest n k) d.registers (.matchArm n k) (nextTest n (k + 1) arms) ∈ _
      rw [← hclose]
      exact mem_append_right _ mem_cons_self
    | succ j =>
      obtain ⟨register, hmem⟩ := ih hrest harm
      rw [Nat.add_assoc, Nat.add_comm 1 j] at hmem
      exact ⟨register, hmem⟩

end Lower

/-- Whether a function is at the start of one of its blocks. -/
def Activation.AtStart (f : Activation) (label : Label) : Prop :=
  f.jump label = .ok f

theorem Activation.atStart_iff {f : Activation} (hb : f.code.find? (·.label = label) = some b) :
    f.AtStart label ↔ f.insts = b.insts ∧ f.term = b.term := by
  simp only [AtStart, jump, hb, Except.ok.injEq]
  constructor
  · intro h
    exact ⟨congrArg insts h.symm, congrArg term h.symm⟩
  · rintro ⟨hinsts, hterm⟩
    rw [← hinsts, ← hterm]

/-- A block that is there can be entered. -/
theorem Activation.exists_jump {f : Activation} (hb : f.code.find? (·.label = label) = some b) :
    ∃ insts term, f.jump label = .ok { f with insts, term } ∧ ({ f with insts, term } : Activation).AtStart label := by
  have hb' : ({ f with insts := b.insts, term := b.term } : Activation).code.find? (·.label = label) = some b := hb
  refine ⟨b.insts, b.term, ?_, (atStart_iff hb').2 ⟨rfl, rfl⟩⟩
  rw [jump, hb]

def Platform.word (platform : Platform) : Constant → MachineWord
  | .int type n => ⟨type.size, .ofInt _ n⟩
  | .float type x => ⟨type.size, platform.floats.constant type x⟩

theorem Activation.read_const (f : Activation) (platform : Platform) (c : Constant) :
    f.read platform (.const c) = .ok (platform.word c) := by
  cases c <;> rfl

theorem Platform.width_word (platform : Platform) (c : Constant) : (platform.word c).width = c.type.size := by
  cases c <;> rfl

/-- Whether two words are equal as values of a type. -/
def Platform.equal {width : Nat} (platform : Platform) (type : MachineTy) (x y : BitVec width) : Bool :=
  if type.isFloating then platform.floats.compare .oeq x y else x == y

/-- Whether a pattern matches the value of the given type that a word stands for. -/
def Pattern.holds (platform : Platform) (enums : EnumTable) (type : MachineTy) (w : MachineWord) (p : Pattern) : Bool :=
  match p.constant? enums with
  | none => true
  | some c => (w.pair? (platform.word (c.inType type))).any fun pair => platform.equal type pair.2.1 pair.2.2

namespace Machine

variable {platform : Platform} {m m' : Machine} {k : Nat}

theorem Steps.unique {m1 m2 : Machine} (h1 : Steps platform k m m1) (h2 : Steps platform k m m2) : m1 = m2 := by
  induction h1 with
  | zero =>
    cases h2
    rfl
  | succ first _ ih =>
    cases h2 with
    | succ first' rest' =>
      rw [first] at first'
      cases first'
      exact ih rest'

/-- What was not the last of some steps is followed by another one. -/
theorem Steps.exists_step {n : Nat} (h : Steps platform n m m') {m1 : Machine} (h1 : Steps platform k m m1)
    (hk : k < n) : ∃ m2, m1.step platform = .ok m2 := by
  induction h1 generalizing n with
  | zero =>
    cases h with
    | zero => omega
    | succ first => exact ⟨_, first⟩
  | succ first' _ ih =>
    cases h with
    | zero => omega
    | succ first rest =>
      rw [first] at first'
      cases first'
      exact ih rest (by omega)

/-- Whether a test has the given outcome: the machine carries out what is left of the block, which ends with a choice,
    and then the condition has this value. -/
def Tests (platform : Platform) (m : Machine) (outcome : Bool) : Prop :=
  ∃ m' cond ifTrue ifFalse, Steps platform m.top.insts.length m m' ∧ m'.top.insts = [] ∧
    m'.top.term = .condBr cond ifTrue ifFalse ∧ m'.top.read platform cond = .ok ⟨1, .ofBool outcome⟩

theorem Tests.unique {a b : Bool} (ha : m.Tests platform a) (hb : m.Tests platform b) : a = b := by
  obtain ⟨m1, cond, yes, no, hsteps, -, hterm, hread⟩ := ha
  obtain ⟨m2, cond', yes', no', hsteps', -, hterm', hread'⟩ := hb
  obtain rfl := hsteps.unique hsteps'
  rw [hterm] at hterm'
  cases hterm'
  rw [hread] at hread'
  cases a <;> cases b <;> first | rfl | cases hread'

theorem execute_equal {type : MachineTy} {lhs rhs : Operand} {width : Nat} {x y : BitVec width}
    (hlhs : m.top.read platform lhs = .ok ⟨width, x⟩) (hrhs : m.top.read platform rhs = .ok ⟨width, y⟩) (dst : Nat) :
    m.execute platform (BinaryOp.eq.inst type.isFloating lhs rhs dst) =
      .ok (m.set dst ⟨1, .ofBool (platform.equal type x y)⟩) := by
  rw [Platform.equal]
  cases type.isFloating <;>
    simp [BinaryOp.inst, execute, hlhs, hrhs, bind, Except.bind, pure, Except.pure, IntPredicate.holds]

/-- The state after a test: nothing but the register of the test has changed. -/
structure Tested (m : Machine) (register : Nat) (m' : Machine) : Prop where
  code : m'.top.code = m.top.code
  read : ∀ (platform : Platform) (v : Operand), (∀ type, v ≠ .reg register type) →
    m'.top.read platform v = m.top.read platform v

/-- The block for a pattern tests whether the pattern matches. -/
theorem tests_pattern {enums : EnumTable} {v : Operand} {p : Pattern} {ifTrue ifFalse : Label}
    {register : Nat} {w : MachineWord}
    (hvoid : v.type ≠ .void) (hinsts : m.top.insts = (p.testBlock enums v label register ifTrue ifFalse).insts)
    (hterm : m.top.term = (p.testBlock enums v label register ifTrue ifFalse).term)
      (hread : m.top.read platform v = .ok w)
    (hwidth : w.width = v.type.size) :
    ∃ m' cond, Steps platform m.top.insts.length m m' ∧ m'.top.insts = [] ∧ m'.top.term = .condBr cond ifTrue ifFalse ∧
      m'.top.read platform cond = .ok ⟨1, .ofBool (p.holds platform enums v.type w)⟩ ∧ m.Tested register m' := by
  rw [Pattern.testBlock] at hinsts hterm
  rw [Pattern.holds]
  cases hconstant : p.constant? enums with
  | none =>
    rw [hconstant] at hinsts hterm
    rw [hinsts]
    exact ⟨m, _, .zero m, hinsts, hterm, rfl, rfl, fun _ _ _ => rfl⟩
  | some c =>
    rw [hconstant] at hinsts hterm
    obtain ⟨width, x⟩ := w
    obtain rfl : width = v.type.size := hwidth
    have hconst := (m.skip []).top.read_const platform (c.inType v.type)
    have hsize := platform.width_word (c.inType v.type)
    rw [Constant.type_inType hvoid] at hsize
    dsimp only
    generalize platform.word (c.inType v.type) = wanted at hconst hsize ⊢
    obtain ⟨width, y⟩ := wanted
    obtain rfl : width = v.type.size := hsize
    have hvalue : (m.skip []).top.read platform v = .ok ⟨v.type.size, x⟩ := by
      rw [← hread]
      cases v <;> rfl
    have hstep : m.step platform = .ok ((m.skip []).set register ⟨1, .ofBool (platform.equal v.type x y)⟩) := by
      rw [step_of_insts hinsts]
      exact execute_equal hvalue hconst register
    rw [hinsts]
    refine ⟨_, _, .one hstep, rfl, hterm, ?_, rfl, fun platform' v' hv' => ?_⟩
    · rw [MachineWord.pair?_mk, Option.any_some]
      show Option.elim (if register = register then some _ else _) _ _ = _
      rw [if_pos rfl]
      rfl
    · cases v' with
      | const => rw [Activation.read_const, Activation.read_const]
      | param => rfl
      | reg i type =>
        have hne : i ≠ register := by
          rintro rfl
          exact hv' type rfl
        show Option.elim (if i = register then some _ else _) _ _ = _
        rw [if_neg hne]
        rfl

end Machine

/-- A test can be taken to give its outcome to a register that the value is not in. -/
theorem IrFunction.SingleAssignment.exists_fresh {slots : List Slot} (h : g.SingleAssignment slots)
    (htyped : g.Typed code) {enums : EnumTable} {v : Operand} {p : Pattern} {ifTrue ifFalse : Label} {register : Nat}
    (hblock : p.testBlock enums v label register ifTrue ifFalse ∈ g.blocks) :
      ∃ register', (∀ type, v ≠ .reg register' type) ∧
      p.testBlock enums v label register' ifTrue ifFalse = p.testBlock enums v label register ifTrue ifFalse := by
  cases hconstant : p.constant? enums with
  | none =>
    -- Nothing is compared, so any register will do.
    have hsame (register' : Nat) :
        p.testBlock enums v label register' ifTrue ifFalse = p.testBlock enums v label register ifTrue ifFalse := by
      rw [Pattern.testBlock, Pattern.testBlock, hconstant]
    cases v with
    | const | param => exact ⟨0, nofun, hsame 0⟩
    | reg i => exact ⟨i + 1, by simp, hsame (i + 1)⟩
  | some c =>
    refine ⟨register, fun type => ?_, rfl⟩
    let test := BinaryOp.eq.inst v.type.isFloating v (.const (c.inType v.type)) register
    have htest : test ∈ (p.testBlock enums v label register ifTrue ifFalse).insts := by
      rw [Pattern.testBlock, hconstant]
      exact mem_cons_self
    have hregister : test.register? = some (register, .i1) := by
      show (BinaryOp.eq.inst v.type.isFloating v _ register).register? = _
      cases v.type.isFloating <;> rfl
    have hoperand : v ∈ test.operands := by
      show v ∈ (BinaryOp.eq.inst v.type.isFloating v _ register).operands
      cases v.type.isFloating <;> exact mem_cons_self
    exact h.ne_reg htyped hblock htest hregister hoperand type

/-- Every block but the first is in the finished code as it was drafted. -/
theorem Draft.mem_finished {d : Draft} (hb : b ∈ d.closed) (hlabel : b.label ≠ .entry)
    (hfirst : (d.finished.map (·.label)).head? = some .entry) : b ∈ d.finished := by
  cases hclosed : d.closed with
  | nil =>
    rw [hclosed] at hb
    cases hb
  | cons first =>
    rw [hclosed] at hb
    rw [finished_of_cons hclosed] at hfirst ⊢
    have hne : b ≠ first := by
      rintro rfl
      exact hlabel (by simpa using hfirst)
    exact mem_cons_of_mem _ ((mem_cons.1 hb).resolve_left hne)

theorem IrFunction.WellFormed.find?_eq (h : g.WellFormed) (hb : b ∈ g.blocks) :
    g.blocks.find? (·.label = b.label) = some b :=
  find?_of_nodup_key IrBlock.label h.labels_nodup hb

/-- Whatever a block goes to can be found. -/
theorem IrFunction.WellFormed.find?_target (h : g.WellFormed) (hb : b ∈ g.blocks) (hlabel : label ∈ b.term.targets) :
    ∃ c, g.blocks.find? (·.label = label) = some c := by
  obtain ⟨c, hc, rfl⟩ := mem_map.1 (h.targets_placed b hb label hlabel)
  exact ⟨c, h.find?_eq hc⟩

/-- The code of every function is in order. -/
theorem Lower.code_in_order {a : Analysis} {p : Program Unit} {target : Target} (ha : a.Accepts p)
    (herrors : a.hasErrors = false) (h : a.lower target = .ok code) (hg : g ∈ code.functions) :
    g.Typed code ∧ g.WellFormed ∧ ∃ slots, g.SingleAssignment slots := by
  obtain ⟨code', hlower, htyped, -⟩ := program_lowers ha herrors target
  obtain rfl : code' = code := Except.ok.inj (hlower.symm.trans h)
  obtain ⟨d, hprogram⟩ := gives_program_of_lower h
  obtain ⟨parts, -, hmap, hall⟩ := program_written
    (P := fun edits g => g.WellFormed ∧ ∀ m, g.Typed m → g.SingleAssignment (edits.filterMap (·.allocated?)))
    (fun hmodule hfunction => by
      obtain ⟨edits, hwrites, hassigned⟩ := function_singleAssignment hmodule hfunction
      exact ⟨edits, hwrites, function_wellFormed hfunction, hassigned⟩) hprogram
  rw [← hmap] at hg
  obtain ⟨part, hpart, rfl⟩ := mem_map.1 hg
  have htyped' := htyped.functions part.2 (hmap ▸ hg)
  exact ⟨htyped', (hall part hpart).1, _, (hall part hpart).2 code' htyped'⟩

namespace Program.LoweredMatch

variable {p : Program Unit} {strict : Bool}

/-- Where a match goes on after its first `k` arms failed. -/
def next (m : p.LoweredMatch strict) (k : Nat) : Label :=
  nextTest m.draft.labels k (m.arms.drop k)

theorem next_of_getElem? {m : p.LoweredMatch strict} {k : Nat} {arm : Arm Ty} (h : m.arms[k]? = some arm) :
    m.next k = .matchTest m.draft.labels k := by
  obtain ⟨hk, -⟩ := List.getElem?_eq_some_iff.1 h
  have hne : m.arms.drop k ≠ [] := by
    intro hnil
    have := drop_eq_nil_iff.1 hnil
    omega
  rw [next, nextTest, if_neg (by simpa using hne)]

/-- Whether code tests an arm: there is a block for the test, which compares with the scrutinee and gives the outcome
    to a register of its own, and blocks for what follows. -/
structure TestedIn (m : p.LoweredMatch strict) (g : IrFunction) (k : Nat) (arm : Arm Ty) (register : Nat) : Prop where
  fresh : ∀ type, m.value ≠ .reg register type
  test : g.blocks.find? (·.label = .matchTest m.draft.labels k) =
    some (arm.pattern.testBlock (p.analyze strict).enums m.value (.matchTest m.draft.labels k) register
      (.matchArm m.draft.labels k) (m.next (k + 1)))
  taken : ∃ b, g.blocks.find? (·.label = .matchArm m.draft.labels k) = some b
  failed : ∃ b, g.blocks.find? (·.label = m.next (k + 1)) = some b

/-- The arms of every match that is lowered are tested in the code of its function, and where all tests fail nothing is
    defined about what follows. -/
theorem exists_tested (herrors : (p.analyze strict).hasErrors = false) (m : p.LoweredMatch strict) {target : Target}
    (hlower : (p.analyze strict).lower target = .ok code) : ∃ g, code.functions[m.index]? = some g ∧
      (∀ k arm, m.arms[k]? = some arm → ∃ register, m.TestedIn g k arm register) ∧
      g.blocks.find? (·.label = .matchFail m.draft.labels) = some ⟨.matchFail m.draft.labels, [], .unreachable⟩ := by
  have hvoid := (m.width_value herrors).1
  obtain ⟨f, -, -, -, henv, -⟩ := m.lowered.lockstep herrors
  have henums : m.low.enums = (p.analyze strict).enums := congrArg Env.enums henv
  obtain ⟨g, last, hg, hblocks, hlast, d', hrun, honward⟩ := m.lowered.doneIn hlower
  obtain ⟨htyped, hwellFormed, slots, hassigned⟩ :=
    code_in_order (accepts_of_hasErrors herrors) herrors hlower (mem_of_getElem? hg)
  have hlabels : g.labels = last.finished.map (·.label) := by rw [IrFunction.labels, hblocks]
  have hplaced {b : IrBlock} (hb : b ∈ last.closed) (hlabel : b.label ≠ .entry) : b ∈ g.blocks :=
    hblocks ▸ Draft.mem_finished hb hlabel (hlabels ▸ hwellFormed.entry_first)
  obtain ⟨v, hselection, -⟩ := gives_map.1 hrun
  obtain ⟨value, slot, d1, d2, d3, d4, d5, d6, d7, hexpr, hslot, hbr, harms, hfail, hunreachable, hend, hload⟩ :=
    gives_selection hselection
  obtain ⟨rfl, -⟩ := m.lowers.unique hexpr
  have hwithin : last.Within last.closed := ⟨Subset.refl _, by simp [hlast]⟩
  have honward6 : d6.Grows last :=
    ((Grows.place _).draft hend).trans <| ((Grows.loadResult _).draft hload).trans honward
  have honward4 : d4.Grows last :=
    ((Grows.place _).draft hfail).trans <| ((Grows.terminate _).draft hunreachable).trans honward6
  refine ⟨g, hg, fun k arm harm => ?_, ?_⟩
  · obtain ⟨register, hmem⟩ := testBlock_of_armList hvoid harms (honward4.within _ hwithin) harm
    rw [Nat.zero_add, henums] at hmem
    have hblock := hplaced hmem (by simp)
    obtain ⟨register', hfresh, hsame⟩ := hassigned.exists_fresh htyped hblock
    rw [← hsame] at hblock
    have hfind := hwellFormed.find?_eq hblock
    rw [Pattern.label_testBlock] at hfind
    exact ⟨register', hfresh, hfind, hwellFormed.find?_target hblock (by simp),
      hwellFormed.find?_target hblock (by simp [next])⟩
  · have hclosed := (honward6.within _ hwithin).closed
    obtain ⟨-, rfl⟩ := gives_place.1 hfail
    obtain ⟨b, hb, rfl⟩ := gives_terminate.1 hunreachable
    cases hb
    have hblock : (⟨.matchFail m.draft.labels, [], .unreachable⟩ : IrBlock) ∈ g.blocks :=
      hplaced (hclosed (mem_append_right _ mem_cons_self)) (by simp)
    exact hwellFormed.find?_eq hblock

namespace TestedIn

variable {m : p.LoweredMatch strict} {g : IrFunction} {k register : Nat} {arm : Arm Ty} {platform : Platform}
  {s : Machine} {w : MachineWord}

/-- The outcome of the test of an arm is whether its pattern matches the value of the scrutinee. -/
theorem tests (h : m.TestedIn g k arm register) (hvoid : m.value.type ≠ .void) (hcode : s.top.code = g.blocks)
    (hstart : s.top.AtStart (.matchTest m.draft.labels k)) (hread : s.top.read platform m.value = .ok w)
    (hwidth : w.width = m.value.type.size) :
    s.Tests platform (arm.pattern.holds platform (p.analyze strict).enums m.value.type w) := by
  obtain ⟨hinsts, hterm⟩ := (Activation.atStart_iff (hcode ▸ h.test)).1 hstart
  obtain ⟨s', cond, hsteps, hend, hchoice, houtcome, -⟩ := Machine.tests_pattern hvoid hinsts hterm hread hwidth
  exact ⟨s', cond, _, _, hsteps, hend, hchoice, houtcome⟩

/-- After the test the machine is at the arm or goes on with the next test, with the same value to test. -/
theorem reaches (h : m.TestedIn g k arm register) (hvoid : m.value.type ≠ .void) (hcode : s.top.code = g.blocks)
    (hstart : s.top.AtStart (.matchTest m.draft.labels k)) (hread : s.top.read platform m.value = .ok w)
    (hwidth : w.width = m.value.type.size) :
    s.Reaches platform fun s' => s'.top.code = g.blocks ∧ s'.top.read platform m.value = .ok w ∧
      s'.top.AtStart (if arm.pattern.holds platform (p.analyze strict).enums m.value.type w then
        .matchArm m.draft.labels k else m.next (k + 1)) := by
  obtain ⟨hinsts, hterm⟩ := (Activation.atStart_iff (hcode ▸ h.test)).1 hstart
  obtain ⟨s', cond, hsteps, hend, hchoice, houtcome, htested⟩ := Machine.tests_pattern hvoid hinsts hterm hread hwidth
  generalize arm.pattern.holds platform (p.analyze strict).enums m.value.type w = outcome at houtcome ⊢
  have hcode' : s'.top.code = g.blocks := htested.code.trans hcode
  have hread' : s'.top.read platform m.value = .ok w := (htested.read platform m.value h.fresh).trans hread
  have hplaced : ∃ b, s'.top.code.find?
      (·.label = if outcome then .matchArm m.draft.labels k else m.next (k + 1)) = some b := by
    rw [hcode']
    cases outcome
    · exact h.failed
    · exact h.taken
  obtain ⟨b, hb⟩ := hplaced
  obtain ⟨insts, term, hjump, hat⟩ := Activation.exists_jump hb
  have hstep : s'.step platform = .ok (s'.goto insts term) := by
    rw [Machine.step_of_term hend, hchoice, Machine.finish, houtcome]
    cases outcome <;> exact congrArg (Except.map fun top => { s' with top }) hjump
  refine ⟨_, _, hsteps.trans (.one hstep), hcode', ?_, hat⟩
  rw [← hread']
  cases m.value <;> rfl

/-- The machine can be at the test of an arm. -/
theorem exists_atStart (h : m.TestedIn g k arm register) :
    ∃ s : Machine, s.top.code = g.blocks ∧ s.top.AtStart (.matchTest m.draft.labels k) := by
  let top : Activation := .enter g.blocks [] (arm.pattern.testBlock (p.analyze strict).enums m.value
    (.matchTest m.draft.labels k) register (.matchArm m.draft.labels k) (m.next (k + 1)))
  have hat : top.AtStart (.matchTest m.draft.labels k) := (Activation.atStart_iff (f := top) h.test).2 ⟨rfl, rfl⟩
  exact ⟨⟨top, [], []⟩, rfl, hat⟩

end TestedIn

/-- A variant that is matched is a constant in code. -/
theorem value_of_variant (herrors : (p.analyze strict).hasErrors = false) (m : p.LoweredMatch strict) {span : Span}
    {enumName variant : String} (h : m.scrutinee = .variant span enumName variant) :
    ∃ n : Nat, (p.analyze strict).enums.discriminant? enumName variant = some n ∧ m.value = .const (.int .i32 n) := by
  obtain ⟨f, -, -, -, henv, -⟩ := m.lowered.lockstep herrors
  have henums : m.low.enums = (p.analyze strict).enums := congrArg Env.enums henv
  have hlowers := m.lowers
  rw [h, expr, discriminant, henums] at hlowers
  split at hlowers
  · rename_i n hn
    exact ⟨n, hn, (gives_pure.1 hlowers).1⟩
  · exact absurd hlowers gives_fault

end Program.LoweredMatch

end LocLang
