import LocLang.Proofs.Lowering.Convert
import Mathlib.Algebra.Group.Int.Defs
import Mathlib.Algebra.Group.Nat.Defs

namespace LocLang

open Number

variable {n : Int}

/-- Whether an integer is one that a type has. -/
def MachineTy.Holds (type : MachineTy) (n : Int) : Prop :=
  -(2 ^ (type.size - 1)) ≤ n ∧ n < 2 ^ (type.size - 1)

instance (type : MachineTy) (n : Int) : Decidable (type.Holds n) :=
  inferInstanceAs (Decidable (_ ∧ _))

theorem Literal.fitsInt32_iff : fitsInt32 n = true ↔ MachineTy.i32.Holds n := by
  rw [fitsInt32, Bool.and_eq_true, decide_eq_true_eq, decide_eq_true_eq]
  rfl

theorem Number.holds_wrapInt32 (n : Int) : MachineTy.i32.Holds (wrapInt32 n) := by
  have hle : -(2 ^ 32 / 2) ≤ n.bmod (2 ^ 32) := Int.le_bmod (by decide)
  have hlt : n.bmod (2 ^ 32) < (2 ^ 32 + 1) / 2 := Int.bmod_lt (by decide)
  exact ⟨hle, hlt⟩

theorem Number.wrapInt32_of_holds (h : MachineTy.i32.Holds n) : wrapInt32 n = n := by
  obtain ⟨hle, hlt⟩ : -(2 ^ 31) ≤ n ∧ n < 2 ^ 31 := h
  exact Int.bmod_eq_of_le_mul_two (by omega) (by omega)

theorem MachineTy.holds_i64 (h : MachineTy.i32.Holds n) : MachineTy.i64.Holds n := by
  obtain ⟨hle, hlt⟩ : -(2 ^ 31) ≤ n ∧ n < 2 ^ 31 := h
  show -(2 ^ 63) ≤ n ∧ n < 2 ^ 63
  omega

namespace Double

/-- The number that a float is, unless it is infinite. -/
def value? : Double → Option Rat
  | finite negative units exp =>
    let (num, den) := ratio units exp
    some (mkRat (if negative then -num else num) den)
  | infinite _ => none

/-- The integer part of a fraction with a sign. -/
def whole (negative : Bool) (num den : Nat) : Int :=
  if negative then -(num / den : Nat) else (num / den : Nat)

theorem toInt64_finite (negative : Bool) (units : Nat) (exp : Int) : (finite negative units exp).toInt64 =
      let n := whole negative (ratio units exp).1 (ratio units exp).2
      if MachineTy.i64.Holds n then n else -(2 ^ 63) := by
  simp only [toInt64, Bool.and_eq_true, decide_eq_true_eq]
  rfl

theorem holds_toInt64 : ∀ x : Double, MachineTy.i64.Holds x.toInt64
  | finite negative units exp => by
    rw [toInt64_finite]
    dsimp only
    split
    · assumption
    · decide
  | infinite _ => by
    rw [toInt64]
    decide

theorem whole_of_eq_mul {negative : Bool} {num den : Nat} (hden : den ≠ 0)
    (h : (if negative then -num else num : Int) = n * den) : whole negative num den = n := by
  have hpos : (den : Int) ≠ 0 := by omega
  rw [whole]
  split at h
  · rw [if_pos ‹_›, Int.natCast_ediv, show (num : Int) = -n * den by rw [Int.neg_mul, ← h, Int.neg_neg],
      Int.mul_ediv_cancel _ hpos, Int.neg_neg]
  · rw [if_neg ‹_›, Int.natCast_ediv, h, Int.mul_ediv_cancel _ hpos]

/-- A float that is an integer of 64 bits is its own integer part. -/
theorem toInt64_of_value? (hrange : MachineTy.i64.Holds n) : ∀ {x : Double}, x.value? = some (n : Rat) → x.toInt64 = n
  | finite negative units exp, h => by
    have hden : (ratio units exp).2 ≠ 0 := by simp [ratio, Nat.shiftLeft_eq]
    have hvalue : mkRat (if negative then -(ratio units exp).1 else (ratio units exp).1)
        (ratio units exp).2 = mkRat n 1 := (Option.some.inj h).trans (Rat.mkRat_self (n : Rat)).symm
    have hmul := (Rat.mkRat_eq_iff hden Nat.one_ne_zero).1 hvalue
    rw [Int.natCast_one, Int.mul_one] at hmul
    rw [toInt64_finite, whole_of_eq_mul hden hmul]
    exact if_pos hrange

end Double

/-- The number that a literal stands for. -/
def Literal.value? : Literal → Option Rat
  | int n => some n
  | float x => x.value?
  | bool _ => none

/-- The number that a constant stands for. -/
def Constant.value? : Constant → Option Rat
  | int _ n => some n
  | float _ x => x.value?

/-- Whether a literal is a number that an integer type has. Every integer that can be written is one of 64 bits. -/
def Literal.KeptIn (type : MachineTy) : Literal → Prop
  | int n => type = .i32 → fitsInt32 n
  | float x => ∃ n : Int, x.value? = some (n : Rat) ∧ type.Holds n
  | bool _ => False

namespace Constant

variable {type : MachineTy}

theorem value?_int_eq {a : Int} : (int type a).value? = some (n : Rat) ↔ a = n := by
  rw [value?, Option.some.injEq, Rat.intCast_inj]

/-- An integer stands for itself in an integer type, if the type has it. -/
theorem value?_inType_int (htype : type = .i32 ∨ type = .i64) (n : Int) :
    ((ofLiteral (.int n)).inType type).value? = some (n : Rat) ↔ (Literal.int n).KeptIn type := by
  rw [ofLiteral]
  obtain rfl | rfl := htype
  · split
    · rename_i hfits
      exact iff_of_true (value?_int_eq.2 rfl) fun _ => hfits
    · rename_i hfits
      refine iff_of_false (fun h => hfits (Literal.fitsInt32_iff.2 ?_)) fun h => hfits (h rfl)
      exact value?_int_eq.1 h ▸ holds_wrapInt32 n
  · refine iff_of_true ?_ (by simp [Literal.KeptIn])
    split <;> exact value?_int_eq.2 rfl

/-- A float stands for itself in an integer type, if it is an integer that the type has. -/
theorem value?_inType_float (htype : type = .i32 ∨ type = .i64) (x : Double) :
    ((ofLiteral (.float x)).inType type).value? = x.value? ↔ (Literal.float x).KeptIn type := by
  obtain rfl | rfl := htype
  · constructor
    · intro h
      exact ⟨wrapInt32 x.toInt64, h.symm, holds_wrapInt32 _⟩
    · rintro ⟨n, hvalue, hholds⟩
      rw [hvalue]
      refine value?_int_eq.2 ?_
      rw [Double.toInt64_of_value? (MachineTy.holds_i64 hholds) hvalue, wrapInt32_of_holds hholds]
  · constructor
    · intro h
      exact ⟨x.toInt64, h.symm, x.holds_toInt64⟩
    · rintro ⟨n, hvalue, hholds⟩
      rw [hvalue]
      exact value?_int_eq.2 (Double.toInt64_of_value? hholds hvalue)

/-- A literal stands for the same number in an integer type, if the type has it. -/
theorem value?_inType_iff (htype : type = .i32 ∨ type = .i64) {l : Literal} (hbool : ∀ b, l ≠ .bool b) :
    ((ofLiteral l).inType type).value? = l.value? ↔ l.KeptIn type := by
  cases l with
  | int n => exact value?_inType_int htype n
  | float x => exact value?_inType_float htype x
  | bool b => exact absurd rfl (hbool b)

end Constant

end LocLang
