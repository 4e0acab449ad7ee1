import LocLang.Parser.Cursor
import LocLang.Tree

namespace LocLang

namespace BinaryOp

/-- The operator that a token denotes. -/
def ofToken? : TokenKind → Option BinaryOp
  | .plus => some add
  | .minus => some sub
  | .star => some mul
  | .slash => some div
  | .eq => some eq
  | .ne => some ne
  | .lt => some lt
  | .gt => some gt
  | .le => some le
  | .ge => some ge
  | _ => none

/-- How tightly the operator binds, from 0 for the tightest. -/
def level : BinaryOp → Nat
  | mul | div => 0
  | add | sub => 1
  | lt | gt | le | ge => 2
  | eq | ne => 3

def levels : Nat := 4

end BinaryOp

namespace Parser

/-- The operator that the parser stands on, if it binds tighter than level `limit`. -/
def operatorBelow (limit : Nat) : Parser (Option BinaryOp) := do
  let token ← current
  pure ((BinaryOp.ofToken? token.kind).filter (·.level < limit))

/-- Goes on with the operand `rhs` of an operator of level `level` for as long as an operator follows that binds
    tighter; `extend` takes it and what belongs to it. -/
def tighten (extend : Expr Unit → Parser (Expr Unit)) (level : Nat) : Nat → Expr Unit → Parser (Expr Unit)
  | 0, _ => outOfSteps
  | n + 1, rhs => do
    match ← operatorBelow level with
    | none => pure rhs
    | some _ =>
      let rhs ← extend rhs
      tighten extend level n rhs

/-- Extends `lhs` by operators of the levels below `limit` and their operands. The operand after an operator
    takes with it all operators that bind tighter. -/
def climb (operand : Parser (Expr Unit)) : Nat → Nat → Expr Unit → Parser (Expr Unit)
  | 0, _, _ => outOfSteps
  | n + 1, limit, lhs => do
    match ← operatorBelow limit with
    | none => pure lhs
    | some op =>
      advance
      let first ← operand
      let rhs ← tighten (climb operand n op.level) op.level (n + 1) first
      climb operand n limit (.binary (lhs.span.through rhs.span) op lhs rhs)

/-- Looking for an operator does not move on. -/
theorem operatorBelow_cases (limit : Nat) (c : Cursor) : operatorBelow limit c = .ok (none, c) ∨
    ∃ op : BinaryOp, op.level < limit ∧ operatorBelow limit c = .ok (some op, c) := by
  have hlook : operatorBelow limit c = .ok ((BinaryOp.ofToken? c.token.kind).filter (·.level < limit), c) := rfl
  rw [hlook]
  cases hop : (BinaryOp.ofToken? c.token.kind).filter (·.level < limit) with
  | none => exact .inl rfl
  | some op => exact .inr ⟨op, by simpa using (Option.filter_eq_some_iff.1 hop).2, rfl⟩

/-- Climbing stops only where no operator follows that could still be taken. -/
theorem operatorBelow_of_climb {operand : Parser (Expr Unit)} {n limit : Nat} {lhs e : Expr Unit} {c c' : Cursor}
    (h : climb operand n limit lhs c = .ok (e, c')) : operatorBelow limit c' = .ok (none, c') := by
  induction n generalizing lhs c with
  | zero => cases h
  | succ n ih =>
    rw [climb] at h
    obtain ⟨_, _, hop, h⟩ := exists_of_bind_eq_ok h
    rcases operatorBelow_cases limit c with hlook | ⟨op, -, hlook⟩
    · cases hlook.symm.trans hop
      cases h
      exact hlook
    · cases hlook.symm.trans hop
      obtain ⟨_, c1, -, h⟩ := exists_of_bind_eq_ok h
      obtain ⟨first, c2, -, h⟩ := exists_of_bind_eq_ok h
      obtain ⟨rhs, c3, -, h⟩ := exists_of_bind_eq_ok h
      exact ih h

/-- The loop over tighter operators is run at most once: climbing leaves none of them behind. -/
theorem tighten_climb (operand : Parser (Expr Unit)) (n level : Nat) (rhs : Expr Unit) :
    tighten (climb operand (n + 1) level) level (n + 2) rhs = climb operand (n + 1) level rhs := by
  funext c
  rcases operatorBelow_cases level c with hop | ⟨op, -, hop⟩
  · rw [tighten, climb, bind_apply, bind_apply, hop]
    rfl
  · have htighten : tighten (climb operand (n + 1) level) level (n + 2) rhs c =
        (climb operand (n + 1) level rhs >>= tighten (climb operand (n + 1) level) level (n + 1)) c := by
      rw [tighten, bind_apply, hop]
      rfl
    have hclimb : climb operand (n + 1) level rhs c = (climb operand (n + 1) level rhs >>= pure) c := by
      rw [bind_pure]
    rw [htighten, hclimb]
    refine bind_congr_at fun e c' h => ?_
    rw [tighten, bind_apply, operatorBelow_of_climb h]
    rfl

/-- The operand after an operator is climbed from at the operator's level. -/
theorem climb_succ (operand : Parser (Expr Unit)) (n limit : Nat) (lhs : Expr Unit) :
    climb operand (n + 1) limit lhs = (do
      match ← operatorBelow limit with
      | none => pure lhs
      | some op =>
        advance
        let first ← operand
        let rhs ← climb operand n op.level first
        climb operand n limit (.binary (lhs.span.through rhs.span) op lhs rhs)) := by
  funext c
  rw [climb]
  refine bind_congr_at fun op c1 _ => ?_
  cases op with
  | none => rfl
  | some op =>
    refine bind_congr_at fun _ c2 _ => bind_congr_at fun first c3 _ => ?_
    cases n with
    | zero =>
      -- Both sides have run out of steps, at the same token.
      rw [tighten, bind_apply, bind_apply]
      rcases operatorBelow_cases op.level c3 with hop | ⟨op', -, hop⟩
      · rw [hop]
        rfl
      · rw [hop]
        rfl
    | succ n => rw [tighten_climb]

/-- Operands with operators of any level between them. -/
def operation (operand : Parser (Expr Unit)) : Parser (Expr Unit) := do
  let lhs ← operand
  climb operand (← budget) BinaryOp.levels lhs

end Parser

end LocLang
