import LocLang.Lowering.Convert
import LocLang.Proofs.Semantics.Machine
import Mathlib.Algebra.Group.Int.Defs
import Mathlib.Algebra.Group.Nat.Defs

namespace LocLang

open BitVec

variable {width : Nat}

section Double

open Number

theorem Number.le_roundDiv (num den : Nat) : num / den ≤ roundDiv num den := by
  simp only [roundDiv]
  split
  · exact Nat.le_refl _
  · split <;> omega

theorem Number.floorLog2_one {num : Nat} (h : num ≠ 0) : floorLog2 num 1 = num.log2 := by
  have hle : 2 ^ num.log2 ≤ num := Nat.log2_self_le h
  have hone : Nat.log2 1 = 0 := by decide
  simp [floorLog2, hone, hle, Nat.shiftLeft_eq]

/-- A positive number is rounded to some units. -/
theorem Number.Format.round_double_ne_zero {num units : Nat} {exp : Int} (hnum : num ≠ 0)
    (h : Format.double.round num 1 = some (units, exp)) : units ≠ 0 := by
  rw [Format.round, if_neg hnum, floorLog2_one hnum] at h
  simp only [Nat.shiftLeft_eq] at h
  generalize hlast : max Format.double.minExp (num.log2 - (Format.double.precision - 1)) = last at h
  have hle : last.toNat ≤ num.log2 := by
    simp only [Format.double] at hlast
    omega
  have hdiv : 1 * 2 ^ last.toNat ≤ num * 2 ^ (-last).toNat := calc
    1 * 2 ^ last.toNat ≤ 2 ^ num.log2 := by
      rw [Nat.one_mul]
      exact Nat.pow_le_pow_right (by decide) hle
    _ ≤ num := Nat.log2_self_le hnum
    _ ≤ num * 2 ^ (-last).toNat := Nat.le_mul_of_pos_right _ (Nat.two_pow_pos _)
  have hpos := Nat.div_pos hdiv (Nat.mul_pos Nat.one_pos (Nat.two_pow_pos _))
  have hround := le_roundDiv (num * 2 ^ (-last).toNat) (1 * 2 ^ last.toNat)
  generalize roundDiv (num * 2 ^ (-last).toNat) (1 * 2 ^ last.toNat) = rounded at h hround
  by_cases hfull : rounded = 1 * 2 ^ Format.double.precision
  · simp only [if_pos hfull, Option.ite_none_right_eq_some, Option.some.injEq, Prod.mk.injEq] at h
    exact h.2.1 ▸ (by decide)
  · simp only [if_neg hfull, Option.ite_none_right_eq_some, Option.some.injEq, Prod.mk.injEq] at h
    omega

/-- Only zero is rounded to zero. -/
theorem Double.isZero_ofInt (n : Int) : (Double.ofInt n).isZero = decide (n = 0) := by
  by_cases hn : n = 0
  · subst hn
    decide
  · have hnum : n.natAbs ≠ 0 := by omega
    rw [Double.ofInt, Double.ofRatio]
    split
    · rename_i units exp hround
      simp [Double.isZero, hn, Format.round_double_ne_zero hnum hround]
    · simp [Double.isZero, hn]

end Double

section Bits

variable {width : Nat}

theorem ofInt_toInt_add (x y : BitVec width) : BitVec.ofInt width (x.toInt + y.toInt) = x + y := by
  rw [ofInt_add, ofInt_toInt, ofInt_toInt]

theorem ofInt_toInt_sub (x y : BitVec width) : BitVec.ofInt width (x.toInt - y.toInt) = x - y :=
  eq_of_toInt_eq (by rw [toInt_ofInt, toInt_sub])

theorem ofInt_toInt_mul (x y : BitVec width) : BitVec.ofInt width (x.toInt * y.toInt) = x * y := by
  rw [ofInt_mul, ofInt_toInt, ofInt_toInt]

theorem ofInt_toInt_tdiv (x y : BitVec width) : BitVec.ofInt width (x.toInt.tdiv y.toInt) = x.sdiv y :=
  eq_of_toInt_eq (by rw [toInt_ofInt, toInt_sdiv])

/-- A word is too narrow for a quotient in one case only. -/
theorem toInt_sdiv_ne_iff (hwidth : 1 < width) (x y : BitVec width) :
    (x.sdiv y).toInt ≠ x.toInt.tdiv y.toInt ↔ x = intMin width ∧ y = -1 := by
  constructor
  · intro hne
    refine Classical.byContradiction fun h => hne (toInt_sdiv_of_ne_or_ne x y ?_)
    rcases Classical.em (x = intMin width) with hx | hx
    · exact .inr fun hy => h ⟨hx, hy⟩
    · exact .inl hx
  · rintro ⟨rfl, rfl⟩ heq
    have hlt : (sdiv (intMin width) (-1)).toInt < 2 ^ (width - 1) := toInt_lt
    have hmin : (intMin width).toInt = -(2 ^ (width - 1)) := by
      rw [toInt_intMin, Nat.mod_eq_of_lt (Nat.pow_lt_pow_right (by decide) (by omega))]
      simp
    have hone : (-1 : BitVec width).toInt = -1 := by
      rw [show (-1 : BitVec width) = allOnes width from neg_one_eq_allOnes, toInt_allOnes, if_pos (by omega)]
    rw [heq, hmin, hone] at hlt
    simp at hlt

theorem ofInt_toInt_setWidth (x : BitVec width) {target : Nat} (h : target ≤ width) :
    BitVec.ofInt target x.toInt = x.setWidth target := by
  refine eq_of_toInt_eq ?_
  rw [toInt_ofInt, toInt_setWidth, toInt_eq_toNat_bmod, Int.bmod_bmod_of_dvd (Nat.pow_dvd_pow 2 h)]

end Bits

theorem Ty.machine_ne_void_of_isInteger {t : Ty} (h : t.isInteger) : t.machine ≠ .void := by
  cases t <;> simp_all [isInteger, lowered, machine]

namespace Value

variable {t : Ty} {v : Value} {n : Int}

theorem type_ofInt (ht : t.isInteger) : (ofInt t n).type = t.lowered := by
  cases t <;> first | rfl | cases ht

theorem machine_ofInt (ht : t.isInteger) : (ofInt t n).type.machine = t.machine := by
  rw [type_ofInt ht]
  cases t <;> rfl

theorem isInteger_type (v : Value) : v.type.isInteger := by
  cases v <;> rfl

theorem type_convert_type (v w : Value) : (w.convert v.type).type = v.type := by
  cases v <;> rfl

/-- A value of the right type stays as it is. -/
theorem convert_eq_self (h : v.type.machine = t.machine) : v.convert t = v := by
  cases v with
  | bool b =>
    cases t <;> cases h
    cases b <;> rfl
  | int32 n | int64 n => cases t <;> cases h <;> simp [convert, ofInt, toInt]

theorem toInt_bounds (v : Value) : -2 ^ 63 ≤ v.toInt ∧ v.toInt < 2 ^ 63 := by
  cases v with
  | bool b => cases b <;> decide
  | int32 n =>
    have hlo := n.le_toInt
    have hhi := n.toInt_lt
    simp only [toInt]
    omega
  | int64 n => exact ⟨n.le_toInt, n.toInt_lt⟩

def word : Value → MachineWord
  | bool b => ⟨1, .ofBool b⟩
  | int32 n => ⟨32, n.toBitVec⟩
  | int64 n => ⟨64, n.toBitVec⟩

def constant (v : Value) : Constant :=
  .int v.type.machine v.toInt

theorem toInt_ofInt_int32 (hlo : -2 ^ 31 ≤ n) (hhi : n < 2 ^ 31) : (ofInt .int32 n).toInt = n :=
  Int32.toInt_ofInt_of_le hlo hhi

theorem toInt_ofInt_int64 (hlo : -2 ^ 63 ≤ n) (hhi : n < 2 ^ 63) : (ofInt .int64 n).toInt = n :=
  Int64.toInt_ofInt_of_le hlo hhi

end Value

namespace Constant

variable {t : Ty} {v : Value}

theorem fold_constant (ht : t.isInteger) (v : Value) : v.constant.fold t.machine = (v.convert t).constant := by
  have hbounds := v.toInt_bounds
  cases t with
  | unknown | int32 =>
    show int .i32 (Number.wrapInt32 v.toInt) = int .i32 (Int32.ofInt v.toInt).toInt
    rw [Int32.toInt_ofInt]
    rfl
  | int64 =>
    show int .i64 v.toInt = int .i64 (Value.ofInt .int64 v.toInt).toInt
    rw [Value.toInt_ofInt_int64 hbounds.1 hbounds.2]
  | bool =>
    show ofBool (!(Double.ofInt v.toInt).isZero) = ofBool (v.toInt ≠ 0)
    rw [Double.isZero_ofInt]
    simp
  | float32 | float64 | void => cases ht

theorem zero_eq (ht : t.isInteger) : zero t.machine = (Value.ofInt t 0).constant := by
  cases t <;> first | rfl | cases ht

theorem int_discriminant {n : Nat} (h : n < 2 ^ 31) : int .i32 n = (Value.ofDiscriminant n).constant := by
  show int .i32 n = int .i32 (Value.ofInt .int32 n).toInt
  rw [Value.toInt_ofInt_int32 (by omega) (by omega)]

end Constant

/-- Whether an integer literal can be represented in 64 bits. -/
def Literal.InRange : Literal → Prop
  | int n => -2 ^ 63 ≤ n ∧ n < 2 ^ 63
  | float _ | bool _ => True

theorem Constant.ofLiteral_eq {literal : Literal} {v : Value} (hrange : literal.InRange)
    (h : Value.ofLiteral? literal = some v) : ofLiteral literal = v.constant := by
  cases literal with
  | int n =>
    cases h
    by_cases hfits : Literal.fitsInt32 n
    · have hbounds : -2 ^ 31 ≤ n ∧ n < 2 ^ 31 := by simpa [Literal.fitsInt32] using hfits
      rw [ofLiteral, if_pos hfits, if_pos hfits]
      show int .i32 n = int .i32 (Value.ofInt .int32 n).toInt
      rw [Value.toInt_ofInt_int32 hbounds.1 hbounds.2]
    · rw [ofLiteral, if_neg hfits, if_neg hfits]
      show int .i64 n = int .i64 (Value.ofInt .int64 n).toInt
      rw [Value.toInt_ofInt_int64 hrange.1 hrange.2]
  | bool =>
    cases h
    rfl
  | float => cases h

namespace BinaryOp

variable {op : BinaryOp} {t : Ty} {a b v : Value}

theorem resultType_eq (ht : t.isInteger) (h : op.compute? t a b = some v) :
    op.resultType t.machine = v.type.machine := by
  cases op with
  | add | sub | mul =>
    cases h
    exact (Value.machine_ofInt ht).symm
  | div =>
    simp only [compute?, Option.ite_none_left_eq_some, Option.some.injEq] at h
    rw [← h.2]
    exact (Value.machine_ofInt ht).symm
  | eq | ne | lt | gt | le | ge =>
    cases h
    rfl

theorem operandType_eq (op : BinaryOp) (a b : Value) :
    op.operandType a.type.machine b.type.machine = (op.workType a.type b.type).machine := by
  cases a <;> cases b <;> cases op <;> rfl

theorem isInteger_workType (op : BinaryOp) (a b : Value) : (op.workType a.type b.type).isInteger := by
  cases a <;> cases b <;> cases op <;> rfl

theorem type_convert_workType (op : BinaryOp) (a b v : Value) :
    (v.convert (op.workType a.type b.type)).type = op.workType a.type b.type := by
  cases a <;> cases b <;> cases op <;> rfl

theorem isComparison_of_workType (h : op.workType a.type b.type = .bool) : op.isComparison := by
  cases op with
  | add | sub | mul | div => cases a <;> cases b <;> cases h
  | eq | ne | lt | gt | le | ge => rfl

end BinaryOp

@[simp]
theorem MachineWord.pair?_mk (x y : BitVec width) : pair? ⟨width, x⟩ ⟨width, y⟩ = some ⟨width, x, y⟩ := by
  simp [pair?]

theorem Activation.read_constant (f : Activation) (v : Value) : f.read platform (.const v.constant) = .ok v.word := by
  cases v with
  | bool b => cases b <;> rfl
  | int32 n =>
    show Except.ok (⟨32, BitVec.ofInt 32 n.toBitVec.toInt⟩ : MachineWord) = _
    rw [ofInt_toInt]
    rfl
  | int64 n =>
    show Except.ok (⟨64, BitVec.ofInt 64 n.toBitVec.toInt⟩ : MachineWord) = _
    rw [ofInt_toInt]
    rfl

namespace Machine

variable {platform : Platform} {m : Machine} {lhs o rhs : Operand} {x : BitVec width}

theorem execute_icmp {y : BitVec width} (hlhs : m.top.read platform lhs = .ok ⟨width, x⟩)
    (hrhs : m.top.read platform rhs = .ok ⟨width, y⟩) (dst : Nat) (pred : IntPredicate) :
    m.execute platform (.icmp dst pred lhs rhs) =
      .ok (m.set dst (Value.bool (pred.holds x y)).word) := by
  simp only [execute, hlhs, hrhs, bind, Except.bind, MachineWord.pair?_mk]
  rfl

theorem execute_arith {y z : BitVec width} {op : ArithOp} (hlhs : m.top.read platform lhs = .ok ⟨width, x⟩)
    (hrhs : m.top.read platform rhs = .ok ⟨width, y⟩) (hop : op.run platform x y = .ok z) (dst : Nat) :
    m.execute platform (.arith dst op lhs rhs) = .ok (m.set dst ⟨width, z⟩) := by
  simp only [execute, hlhs, hrhs, bind, Except.bind, MachineWord.pair?_mk, hop]
  rfl

theorem execute_cast {op : CastOp} {type : MachineTy} {y : BitVec type.size}
    (hread : m.top.read platform o = .ok ⟨width, x⟩) (hop : op.run platform x type.size = .ok y) (dst : Nat) :
    m.execute platform (.cast dst op o type) = .ok (m.set dst ⟨type.size, y⟩) := by
  simp only [execute, hread, bind, Except.bind, hop]
  rfl

theorem holds_ne_zero (x : BitVec width) : IntPredicate.ne.holds x (.ofInt width 0) = decide (x.toInt ≠ 0) := by
  have hiff : x.toInt = 0 ↔ x = .ofInt width 0 := by
    rw [← toInt_inj]
    simp
  rw [IntPredicate.holds, bne, decide_not, decide_eq_decide.2 hiff]
  rfl

/-- Comparing a word with zero is taking its value for a truth value. -/
theorem execute_notZero {v : Value} (htype : o.type = v.type.machine)
    (hread : m.top.read platform o = .ok v.word) (dst : Nat) : m.execute platform (Conversion.notZero.inst o .i1 dst) =
      .ok (m.set dst (v.convert .bool).word) := by
  have hzero : m.top.read platform (.const (.int o.type 0)) = .ok ⟨o.type.size, .ofInt _ 0⟩ := rfl
  rw [htype] at hzero
  rw [Conversion.inst, htype]
  cases v with
  | bool b =>
    rw [execute_icmp hread hzero]
    cases b <;> rfl
  | int32 n | int64 n =>
    rw [execute_icmp hread hzero]
    exact congrArg (fun b => Except.ok (m.set dst (Value.bool b).word)) (holds_ne_zero n.toBitVec)

/-- Converting a word is converting its value. -/
theorem execute_conversion {v : Value} {t : Ty} (ht : t.isInteger) (htype : o.type = v.type.machine)
    (hread : m.top.read platform o = .ok v.word) (hne : v.type.machine ≠ t.machine) (dst : Nat) :
    m.execute platform ((Conversion.between o.type t.machine).inst o t.machine dst) =
      .ok (m.set dst (v.convert t).word) := by
  rw [htype]
  cases v with
  | bool b =>
    cases t with
    | unknown | int32 =>
      show m.execute platform (.cast dst .zext o .i32) = _
      rw [execute_cast hread rfl]
      cases b <;> rfl
    | int64 =>
      show m.execute platform (.cast dst .zext o .i64) = _
      rw [execute_cast hread rfl]
      cases b <;> rfl
    | bool => exact absurd rfl hne
    | float32 | float64 | void => cases ht
  | int32 =>
    cases t with
    | unknown | int32 => exact absurd rfl hne
    | int64 =>
      show m.execute platform (.cast dst .sext o .i64) = _
      rw [execute_cast hread rfl]
      rfl
    | bool => exact execute_notZero htype hread dst
    | float32 | float64 | void => cases ht
  | int64 n =>
    cases t with
    | unknown | int32 =>
      show m.execute platform (.cast dst .trunc o .i32) = _
      rw [execute_cast hread rfl]
      have htrunc := ofInt_toInt_setWidth n.toBitVec (show 32 ≤ 64 by decide)
      exact congrArg (fun x => Except.ok (m.set dst ⟨32, x⟩)) htrunc.symm
    | int64 => exact absurd rfl hne
    | bool => exact execute_notZero htype hread dst
    | float32 | float64 | void => cases ht

/-- Values of one type are words of one width, in the same order. -/
theorem exists_words {a b : Value} (h : a.type = b.type) :
    ∃ width, ∃ x y : BitVec width, a.word = ⟨width, x⟩ ∧ b.word = ⟨width, y⟩ ∧
      x.toInt = a.order ∧ y.toInt = b.order ∧ (x = y ↔ a = b) := by
  cases a with
  | bool p =>
    cases b with
    | bool q => exact ⟨1, .ofBool p, .ofBool q, rfl, rfl, by cases p <;> rfl, by cases q <;> rfl,
        by cases p <;> cases q <;> decide⟩
    | int32 _ | int64 _ => cases h
  | int32 n =>
    cases b with
    | int32 k => exact ⟨32, n.toBitVec, k.toBitVec, rfl, rfl, rfl, rfl, by simp [Int32.toBitVec_inj]⟩
    | bool _ | int64 _ => cases h
  | int64 n =>
    cases b with
    | int64 k => exact ⟨64, n.toBitVec, k.toBitVec, rfl, rfl, rfl, rfl, by simp [Int64.toBitVec_inj]⟩
    | bool _ | int32 _ => cases h

/-- Integers of one type are words of one width, as numbers too. -/
theorem exists_integer_words {a b : Value} {t : Ty} (ha : a.type = t) (hb : b.type = t) (ht : t ≠ .bool) :
    ∃ width, ∃ x y : BitVec width, 1 < width ∧ a.word = ⟨width, x⟩ ∧ b.word = ⟨width, y⟩ ∧
      x.toInt = a.toInt ∧ y.toInt = b.toInt ∧
      ∀ n, (Value.ofInt t n).word = ⟨width, .ofInt width n⟩ ∧
        (Value.ofInt t n).toInt = (BitVec.ofInt width n).toInt := by
  cases a with
  | bool => exact absurd ha.symm ht
  | int32 n =>
    cases ha
    cases b with
    | int32 k => exact ⟨32, n.toBitVec, k.toBitVec, by decide, rfl, rfl, rfl, rfl, fun _ => ⟨rfl, rfl⟩⟩
    | bool _ | int64 _ => cases hb
  | int64 n =>
    cases ha
    cases b with
    | int64 k => exact ⟨64, n.toBitVec, k.toBitVec, by decide, rfl, rfl, rfl, rfl, fun _ => ⟨rfl, rfl⟩⟩
    | bool _ | int32 _ => cases hb

theorem execute_comparison {op : BinaryOp} {a b : Value} (h : a.type = b.type) (hop : op.isComparison)
    (hlhs : m.top.read platform lhs = .ok a.word) (hrhs : m.top.read platform rhs = .ok b.word) (t : Ty) (dst : Nat) :
    ∃ v, op.compute? t a b = some v ∧ m.execute platform (op.inst false lhs rhs dst) = .ok (m.set dst v.word) := by
  obtain ⟨width, x, y, hx, hy, hxo, hyo, hiff⟩ := exists_words h
  rw [hx] at hlhs
  rw [hy] at hrhs
  have hbeq : (x == y) = decide (a = b) := by
    rw [Bool.eq_iff_iff, beq_iff_eq, decide_eq_true_iff, hiff]
  cases op with
  | add | sub | mul | div => cases hop
  | eq => exact ⟨_, rfl, by simp [BinaryOp.inst, execute_icmp hlhs hrhs, IntPredicate.holds, hbeq]⟩
  | ne => exact ⟨_, rfl, by simp [BinaryOp.inst, execute_icmp hlhs hrhs, IntPredicate.holds, bne, hbeq]⟩
  | lt | gt => exact ⟨_, rfl, by simp [BinaryOp.inst, execute_icmp hlhs hrhs, IntPredicate.holds, BitVec.slt, hxo, hyo]⟩
  | le | ge => exact ⟨_, rfl, by simp [BinaryOp.inst, execute_icmp hlhs hrhs, IntPredicate.holds, BitVec.sle, hxo, hyo]⟩

/-- An operator on words is the operator on their values. -/
theorem execute_operator {op : BinaryOp} {t : Ty} {a b : Value} (ha : a.type = t) (hb : b.type = t)
    (hbool : t = .bool → op.isComparison) (hlhs : m.top.read platform lhs = .ok a.word)
      (hrhs : m.top.read platform rhs = .ok b.word)
    (dst : Nat) : m.execute platform (op.inst false lhs rhs dst) =
      (op.compute? t a b).elim (.error .undefined) fun v => .ok (m.set dst v.word) := by
  by_cases hop : op.isComparison
  · obtain ⟨v, hv, hexecute⟩ := execute_comparison (ha.trans hb.symm) hop hlhs hrhs t dst
    rw [hv, hexecute, Option.elim_some]
  · obtain ⟨width, x, y, hwidth, hx, hy, hxa, hyb, hof⟩ := exists_integer_words ha hb (fun ht => hop (hbool ht))
    rw [hx] at hlhs
    rw [hy] at hrhs
    cases op with
    | add =>
      rw [BinaryOp.compute?, Option.elim_some, (hof _).1, ← hxa, ← hyb, ofInt_toInt_add]
      exact execute_arith hlhs hrhs rfl dst
    | sub =>
      rw [BinaryOp.compute?, Option.elim_some, (hof _).1, ← hxa, ← hyb, ofInt_toInt_sub]
      exact execute_arith hlhs hrhs rfl dst
    | mul =>
      rw [BinaryOp.compute?, Option.elim_some, (hof _).1, ← hxa, ← hyb, ofInt_toInt_mul]
      exact execute_arith hlhs hrhs rfl dst
    | div =>
      have hquotient := ofInt_toInt_tdiv x y
      have hundefined : y.toInt = 0 ∨ (x.sdiv y).toInt ≠ x.toInt.tdiv y.toInt ↔
          y = 0 ∨ x = intMin width ∧ y = -1 := by
        rw [toInt_sdiv_ne_iff hwidth]
        refine or_congr_left ?_
        rw [← toInt_inj]
        simp
      simp only [BinaryOp.compute?, BinaryOp.inst, (hof _).2, ← hxa, ← hyb, hquotient, hundefined]
      split
      · rename_i h
        have hrun : ArithOp.sdiv.run platform x y = .error .undefined := if_pos h
        simp only [execute, hlhs, hrhs, bind, Except.bind, MachineWord.pair?_mk, hrun, Option.elim_none]
      · rename_i h
        have hrun : ArithOp.sdiv.run platform x y = .ok (x.sdiv y) := if_neg h
        rw [Option.elim_some, (hof _).1, hquotient]
        exact execute_arith hlhs hrhs hrun dst
    | eq | ne | lt | gt | le | ge => exact absurd rfl hop

end Machine

end LocLang
