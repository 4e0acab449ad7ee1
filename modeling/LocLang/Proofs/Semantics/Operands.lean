import LocLang.Proofs.Lowering.TypedDraft
import LocLang.Proofs.Semantics.Instructions
import Mathlib.Algebra.Group.Int.Defs
import Mathlib.Algebra.Group.Nat.Defs

namespace LocLang

open Value

/-- Whether the machine comes from one state to another one by the code that is added to a draft. -/
structure Draft.Runs (platform : Platform) (insts : List Inst) (d d' : Draft) (m m' : Machine) : Prop where
  isOpen : d'.current.isSome
  insts_eq : d'.insts = d.insts ++ insts
  registers_le : d.registers ≤ d'.registers
  follows : m.Follows d.registers m'
  steps : ∀ rest, Machine.Steps platform insts.length (m.skip (insts ++ rest)) (m'.skip rest)

/-- Whether an instruction converts an integer: it compares with zero, or changes the width. -/
def Inst.Converts (v : Operand) (type : MachineTy) : Inst → Prop
  | icmp _ pred lhs rhs => type = .i1 ∧ pred = .ne ∧ lhs = v ∧ rhs = .const (.int v.type 0)
  | cast _ op value target => (op = .zext ∨ op = .sext ∨ op = .trunc) ∧ value = v ∧ target = type
  | _ => False

theorem Conversion.converts_inst {v : Operand} {type : MachineTy} (hv : v.type.isFloating = false)
    (htype : type.isFloating = false) (dst : Nat) : ((between v.type type).inst v type dst).Converts v type := by
  simp only [between, hv, htype, Bool.false_eq_true, if_false]
  split
  · next hbool => exact ⟨hbool, rfl, rfl, rfl⟩
  · split
    · exact ⟨.inl rfl, rfl, rfl⟩
    · split
      · exact ⟨.inr (.inl rfl), rfl, rfl⟩
      · exact ⟨.inr (.inr rfl), rfl, rfl⟩

theorem Value.isFloating_machine (x : Value) : x.type.machine.isFloating = false := by
  cases x <;> rfl

variable {platform : Platform} {d d' d'' : Draft} {m m' m'' : Machine} {x y z : Value} {v w : Operand} {t : Ty}

namespace Draft.Runs

variable {insts insts' : List Inst}

theorem refl (hopen : d.current.isSome) (m : Machine) : Runs platform [] d d m m :=
  ⟨hopen, (List.append_nil _).symm, Nat.le_refl _, .refl _ _, fun _ => .zero _⟩

theorem trans (h : Runs platform insts d d' m m') (h' : Runs platform insts' d' d'' m' m'') :
    Runs platform (insts ++ insts') d d'' m m'' where
  isOpen := h'.isOpen
  insts_eq := by rw [h'.insts_eq, h.insts_eq, List.append_assoc]
  registers_le := Nat.le_trans h.registers_le h'.registers_le
  follows := h.follows.trans h'.follows h.registers_le
  steps rest := by
    rw [List.length_append, List.append_assoc]
    exact (h.steps _).trans (h'.steps rest)

end Draft.Runs

namespace Lower

theorem emitValue_runs (platform : Platform) {type : MachineTy} {inst : Nat → Inst} (hopen : d.current.isSome)
    (htype : type = y.type.machine)
    (hexecute : ∀ rest, (m.skip rest).execute platform (inst d.registers) = .ok
      ((m.skip rest).set d.registers y.word)) :
    ∃ v d' m', (emitValue type inst).Gives d v d' ∧ d.Runs platform [inst d.registers] d' m m' ∧
      m'.top.Holds d'.registers y v := by
  obtain ⟨b, hb⟩ := Option.isSome_iff_exists.1 hopen
  refine ⟨_, _, m.set d.registers y.word, gives_emitValue.2 ⟨b, hb, rfl, rfl⟩,
    ⟨rfl, ?_, Nat.le_succ _, ?_, fun rest => ?_⟩, ?_⟩
  · simp [Draft.insts, hb]
  · exact ⟨rfl, rfl, rfl, fun i hi => if_neg (Nat.ne_of_lt hi)⟩
  · exact .one ((Machine.step_of_insts rfl).trans (hexecute rest))
  · exact ⟨htype, Nat.lt_succ_self _, if_pos rfl⟩

theorem convert_constant (ht : t.isInteger) (x : Value) (d : Draft) :
    (convert (.const x.constant) t.machine).Gives d (.const (x.convert t).constant) d := by
  rw [convert.eq_def]
  split
  · next hsame =>
    have hmachine : x.type.machine = t.machine := hsame.resolve_right (Ty.machine_ne_void_of_isInteger ht)
    rw [convert_eq_self hmachine]
    rfl
  · show (pure (.const (x.constant.fold t.machine)) : Lower Operand).Gives d _ d
    rw [Constant.fold_constant ht]
    rfl

/-- A value in another type. A value that is not known needs one instruction for it. -/
theorem convert_runs (platform : Platform) (ht : t.isInteger) (hopen : d.current.isSome)
    (hv : m.top.Holds d.registers x v) :
    ∃ v' d' m' insts, (convert v t.machine).Gives d v' d' ∧ d.Runs platform insts d' m m' ∧
      m'.top.Holds d'.registers (x.convert t) v' ∧ (∀ i ∈ insts, i.Converts v t.machine) ∧
      ((∀ c, v ≠ .const c) → insts.length = if x.type.machine = t.machine then 0 else 1) := by
  have htype := hv.type_eq
  by_cases hmachine : x.type.machine = t.machine
  · refine ⟨v, d, m, [], ?_, .refl hopen m, (convert_eq_self hmachine).symm ▸ hv, List.forall_mem_nil _,
      fun _ => (if_pos hmachine).symm⟩
    rw [convert.eq_def, if_pos (.inl (htype.trans hmachine))]
    rfl
  · have hne : ¬(v.type = t.machine ∨ t.machine = .void) := by
      rintro (heq | hvoid)
      · exact hmachine (htype.symm.trans heq)
      · exact Ty.machine_ne_void_of_isInteger ht hvoid
    have hemit := emitValue_runs platform (m := m) hopen (machine_ofInt ht).symm fun rest =>
      Machine.execute_conversion ht htype ((hv.skip rest).read_eq platform) hmachine d.registers
    obtain ⟨v', d', m', hgives, hruns, hholds⟩ := hemit
    have hconverts : ∀ i ∈ [(Conversion.between v.type t.machine).inst v t.machine d.registers],
        i.Converts v t.machine := by
      rintro _ ⟨⟩
      · refine Conversion.converts_inst (htype ▸ x.isFloating_machine) ?_ _
        rw [← machine_ofInt (n := 0) ht]
        exact isFloating_machine _
      · next h => cases h
    cases v with
    | const c =>
      obtain rfl : c = x.constant := hv
      exact ⟨_, d, m, [], convert_constant ht x d, .refl hopen m, rfl, List.forall_mem_nil _, fun h => absurd rfl (h _)⟩
    | param name type | reg i type =>
      rw [convert.eq_def, if_neg hne]
      exact ⟨v', d', m', _, hgives, hruns, hholds, hconverts, fun _ => (if_neg hmachine).symm⟩

theorem binary_runs (platform : Platform) {op : BinaryOp} (hopen : d.current.isSome) (hv : m.top.Holds d.registers x v)
    (hw : m.top.Holds d.registers y w) (hz : op.evaluate? x y = some z) :
    ∃ o d' m' insts, (binary op v w).Gives d o d' ∧ d.Runs platform insts d' m m' ∧ m'.top.Holds d'.registers z o := by
  have ht := op.isInteger_workType x y
  obtain ⟨v1, d1, m1, insts1, hgives1, hruns1, hv1, -⟩ := convert_runs platform ht hopen hv
  have hw1 := hw.follow hruns1.follows hruns1.registers_le
  obtain ⟨w2, d2, m2, insts2, hgives2, hruns2, hw2, -⟩ := convert_runs platform ht hruns1.isOpen hw1
  have hv2 := hv1.follow hruns2.follows hruns2.registers_le
  have hx := op.type_convert_workType x y x
  have hfloating : (op.workType x.type y.type).machine.isFloating = false := by
    rw [← hx]
    exact isFloating_machine _
  have hexecute (rest : List Inst) : (m2.skip rest).execute platform (op.inst false v1 w2 d2.registers) =
      .ok ((m2.skip rest).set d2.registers z.word) := by
    rw [Machine.execute_operator hx (op.type_convert_workType x y y) BinaryOp.isComparison_of_workType
      ((hv2.skip rest).read_eq platform) ((hw2.skip rest).read_eq platform), show op.compute? _ _ _ = some z from hz]
    rfl
  obtain ⟨o, d3, m3, hgives3, hruns3, ho⟩ := emitValue_runs platform hruns2.isOpen
      (BinaryOp.resultType_eq ht hz) hexecute
  refine ⟨o, d3, m3, _, ?_, (hruns1.trans hruns2).trans hruns3, ho⟩
  rw [binary, hv.type_eq, hw.type_eq, BinaryOp.operandType_eq]
  refine gives_bind.2 ⟨v1, d1, hgives1, gives_bind.2 ⟨w2, d2, hgives2, ?_⟩⟩
  rw [operate, hfloating]
  exact hgives3

/-- A constant is converted without code, to what the code that converts any other operand of that value computes. -/
theorem folded_as_computed (platform : Platform) (x : Value) (ht : t.isInteger) (hopen : d.current.isSome)
    (hv : m.top.Holds d.registers x v) (hunknown : ∀ c, v ≠ .const c) :
    ∃ c, (convert (.const x.constant) t.machine).Gives d (.const c) d ∧ c.type = t.machine ∧
      ∃ v' d' m' insts, (convert v t.machine).Gives d v' d' ∧ v'.type = t.machine ∧ d.Runs platform insts d' m m' ∧
        (insts.length = if x.type.machine = t.machine then 0 else 1) ∧ (∀ i ∈ insts, i.Converts v t.machine) ∧
        m'.top.read platform v' = m'.top.read platform (.const c) := by
  obtain ⟨v', d', m', insts, hgives, hruns, hholds, hconverts, hlength⟩ := convert_runs platform ht hopen hv
  have htype : (x.convert t).type.machine = t.machine := machine_ofInt ht
  refine ⟨_, convert_constant ht x d, htype, v', d', m', insts, hgives, hholds.type_eq.trans htype, hruns,
    hlength hunknown, hconverts, ?_⟩
  rw [hholds.read_eq platform, Activation.read_constant]

/-- A number of more than 32 bits in a register loses the bits in front. -/
theorem folded_as_computed_wide : ∃ (d : Draft) (m : Machine), d.current.isSome ∧
    m.top.Holds d.registers (.int64 (2 ^ 32 + 7)) (.reg 0 .i64) ∧ ∀ platform : Platform, ∃ v' d' m' insts,
      (convert (.reg 0 .i64) .i32).Gives d v' d' ∧ d.Runs platform insts d' m m' ∧ insts.length = 1 ∧
        m'.top.read platform v' = m'.top.read platform (.const (.int .i32 7)) := by
  have hv : Activation.Holds ⟨[], [], fun _ => some (int64 (2 ^ 32 + 7)).word, fun _ => none, [], .unreachable⟩ 1
      (.int64 (2 ^ 32 + 7)) (.reg 0 .i64) := ⟨rfl, by decide, rfl⟩
  refine ⟨{ scopes := .empty, registers := 1, current := some ⟨.entry, []⟩ }, ⟨_, [], []⟩, rfl, hv, fun platform => ?_⟩
  obtain ⟨c, hc, -, v', d', m', insts, hgives, -, hruns, hlength, -, hread⟩ :=
    folded_as_computed (v := .reg 0 .i64) (t := .int32)
      (d := { scopes := .empty, registers := 1, current := some ⟨.entry, []⟩ }) (m := ⟨_, [], []⟩) platform _
      rfl rfl hv (by simp)
  obtain ⟨⟨⟩, -⟩ := hc.unique (convert_constant rfl _ _)
  exact ⟨v', d', m', insts, hgives, hruns, hlength, hread⟩

end Lower

/-- The comparison of numbers that an operator stands for. -/
def BinaryOp.compares : BinaryOp → Int → Int → Bool
  | eq, a, b => a = b
  | ne, a, b => a ≠ b
  | lt, a, b => a < b
  | gt, a, b => b < a
  | le, a, b => a ≤ b
  | ge, a, b => b ≤ a
  | add, _, _ | sub, _, _ | mul, _, _ | div, _, _ => false

/-- Whether an operator asks which of two values is the greater one. -/
def BinaryOp.isOrdering : BinaryOp → Bool
  | lt | gt | le | ge => true
  | add | sub | mul | div | eq | ne => false

namespace Value

/-- A value keeps its number in a type that is as wide. -/
theorem toInt_convert (hwide : x.type.size ≤ t.size) (ht : t.isInteger) : (x.convert t).toInt = x.toInt := by
  cases x with
  | bool b => cases t <;> cases b <;> rfl
  | int32 n =>
    have hlo := n.le_toInt
    have hhi := n.toInt_lt
    cases t with
    | unknown | int32 => exact toInt_ofInt_int32 hlo hhi
    | int64 => exact toInt_ofInt_int64 (by simp only [toInt]; omega) (by simp only [toInt]; omega)
    | bool => exact absurd hwide (show ¬32 ≤ 1 by decide)
    | float32 | float64 | void => cases ht
  | int64 n =>
    cases t with
    | int64 => exact toInt_ofInt_int64 n.le_toInt n.toInt_lt
    | unknown | int32 => exact absurd hwide (show ¬64 ≤ 32 by decide)
    | bool => exact absurd hwide (show ¬64 ≤ 1 by decide)
    | float32 | float64 | void => cases ht

/-- Numbers of a type that are equal are the same value. -/
theorem eq_iff_toInt_eq (h : x.type = y.type) : x = y ↔ x.toInt = y.toInt := by
  cases x with
  | bool a =>
    cases y with
    | bool b => cases a <;> cases b <;> decide
    | int32 _ | int64 _ => cases h
  | int32 =>
    cases y with
    | int32 => simp [toInt, Int32.toInt_inj]
    | bool _ | int64 _ => cases h
  | int64 =>
    cases y with
    | int64 => simp [toInt, Int64.toInt_inj]
    | bool _ | int32 _ => cases h

theorem order_eq (h : x.type ≠ .bool) : x.order = x.toInt := by
  cases x with
  | bool => exact absurd rfl h
  | int32 | int64 => rfl

end Value

theorem Ty.size_le_wider {a b : Ty} (ha : a.isInteger) (hb : b.isInteger) :
    a.size ≤ (a.wider b).size ∧ b.size ≤ (a.wider b).size := by
  revert ha hb
  cases a <;> cases b <;> decide

namespace BinaryOp

variable {op : BinaryOp}

/-- Comparisons are made in a type that has both numbers. -/
theorem toInt_convert_workType (hop : op.isComparison) (x y : Value) :
    (x.convert (op.workType x.type y.type)).toInt = x.toInt ∧
    (y.convert (op.workType x.type y.type)).toInt = y.toInt := by
  have ht := op.isInteger_workType x y
  have hwork : op.workType x.type y.type = x.type.wider y.type := if_neg fun h => h.2 hop
  have hsize := Ty.size_le_wider x.isInteger_type y.isInteger_type
  rw [← hwork] at hsize
  exact ⟨toInt_convert hsize.1 ht, toInt_convert hsize.2 ht⟩

/-- Two values are compared as numbers, unless it is asked which of two different truth values is the greater one. -/
theorem exists_evaluate?_comparison (hop : op.isComparison) (x y : Value) : ∃ r, op.evaluate? x y = some (.bool r) ∧
      (r = op.compares x.toInt y.toInt ↔ ¬(x.type = .bool ∧ y.type = .bool ∧ op.isOrdering ∧ x ≠ y)) := by
  by_cases hbool : x.type = .bool ∧ y.type = .bool
  · obtain ⟨a, rfl⟩ : ∃ a, x = .bool a := by cases x <;> first | exact ⟨_, rfl⟩ | cases hbool.1
    obtain ⟨b, rfl⟩ : ∃ b, y = .bool b := by cases y <;> first | exact ⟨_, rfl⟩ | cases hbool.2
    cases op with
    | add | sub | mul | div => cases hop
    | eq | ne | lt | gt | le | ge => exact ⟨_, rfl, by cases a <;> cases b <;> decide⟩
  · have hx := op.type_convert_workType x y x
    have hy := op.type_convert_workType x y y
    have hinteger : op.workType x.type y.type ≠ .bool := by
      intro hwork
      cases x <;> cases y <;> cases op <;> first | exact hbool ⟨rfl, rfl⟩ | cases hwork
    obtain ⟨hxo, hyo⟩ := toInt_convert_workType hop x y
    have hiff := eq_iff_toInt_eq (hx.trans hy.symm)
    have hxorder := order_eq (hx ▸ hinteger)
    have hyorder := order_eq (hy ▸ hinteger)
    rw [hxo] at hxorder
    rw [hyo] at hyorder
    rw [hxo, hyo] at hiff
    have hcompare : op.evaluate? x y = some (.bool (op.compares x.toInt y.toInt)) := by
      rw [evaluate?]
      cases op with
      | add | sub | mul | div => cases hop
      | eq | ne => simp only [compute?, compares, ne_eq, hiff]
      | lt | gt | le | ge => simp only [compute?, compares, hxorder, hyorder]
    exact ⟨_, hcompare, iff_of_true rfl fun h => hbool ⟨h.1, h.2.1⟩⟩

end BinaryOp

namespace Lower

/-- The code for a comparison compares the numbers of its operands, if and only if it is not asked which of two
    different truth values is the greater one. -/
theorem comparison_exact_iff (platform : Platform) (op : BinaryOp) (hop : op.isComparison) (hopen : d.current.isSome)
    (hv : m.top.Holds d.registers x v) (hw : m.top.Holds d.registers y w) :
    ∃ o d' m' insts r, (binary op v w).Gives d o d' ∧ d.Runs platform insts d' m m' ∧
      m'.top.read platform o = .ok (bool r).word ∧
      (r = op.compares x.toInt y.toInt ↔ ¬(x.type = .bool ∧ y.type = .bool ∧ op.isOrdering ∧ x ≠ y)) := by
  obtain ⟨r, hr, hiff⟩ := BinaryOp.exists_evaluate?_comparison hop x y
  obtain ⟨o, d', m', insts, hgives, hruns, ho⟩ := binary_runs platform hopen hv hw hr
  exact ⟨o, d', m', insts, r, hgives, hruns, ho.read_eq platform, hiff⟩

/-- Truth in a register is below a number that is not known either. -/
theorem comparison_exact_iff_truth : ∃ (d : Draft) (m : Machine), d.current.isSome ∧
    m.top.Holds d.registers (.bool true) (.reg 0 .i1) ∧ m.top.Holds d.registers (.int64 2) (.reg 1 .i64) ∧
      ∀ platform : Platform, ∃ o d' m' insts, (binary .lt (.reg 0 .i1) (.reg 1 .i64)).Gives d o d' ∧
        d.Runs platform insts d' m m' ∧ m'.top.read platform o = .ok (bool true).word := by
  have hholds : Activation.Holds ⟨[], [], fun i => some (if i = 0 then (bool true).word else (int64 2).word),
      fun _ => none, [], .unreachable⟩ 2 (.bool true) (.reg 0 .i1) := ⟨rfl, by decide, rfl⟩
  refine ⟨{ scopes := .empty, registers := 2, current := some ⟨.entry, []⟩ }, ⟨_, [], []⟩, rfl, hholds,
    ⟨rfl, by decide, rfl⟩, fun platform => ?_⟩
  obtain ⟨o, d', m', insts, r, hgives, hruns, hread, hiff⟩ :=
    comparison_exact_iff (d := { scopes := .empty, registers := 2, current := some ⟨.entry, []⟩ })
      (m := ⟨_, [], []⟩) (w := .reg 1 .i64) (y := .int64 2) platform .lt rfl rfl hholds ⟨rfl, by decide, rfl⟩
  obtain rfl : r = true := hiff.2 (by simp [type])
  exact ⟨o, d', m', insts, hgives, hruns, hread⟩

/-- Truth is found to be below falsity. -/
theorem truth_below_falsity : ∃ d d' : Draft, (binary .lt (.const (.ofBool true)) (.const (.ofBool false))).Gives
    d (.reg 0 .i1) d' ∧
    d'.insts = [.icmp 0 .slt (.const (.ofBool true)) (.const (.ofBool false))] ∧ (∀ (platform : Platform) (m : Machine),
      m.execute platform (.icmp 0 .slt (.const (.ofBool true)) (.const (.ofBool false))) =
        .ok (m.set 0 (bool true).word)) ∧
    BinaryOp.lt.compares (bool true).toInt (bool false).toInt = false :=
  ⟨{ scopes := .empty, current := some ⟨.entry, []⟩ }, _, rfl, rfl, fun _ _ => rfl, rfl⟩

end Lower

end LocLang
