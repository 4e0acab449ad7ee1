import LocLang.Proofs.Parser.Soundness

namespace LocLang.Parser

variable {α β : Type} {kind : TokenKind} {f : α → Parser β}

/-- Goes on from `lhs` with the given operators and the operands after them, from left to right. There are at most as
    many turns as the number says. -/
def chained (operators : List (TokenKind × BinaryOp)) (operand : Parser (Expr Unit)) :
    Nat → Expr Unit → Parser (Expr Unit)
  | 0, _ => outOfSteps
  | n + 1, lhs => do
    let token ← current
    match operators.lookup token.kind with
    | none => pure lhs
    | some op =>
      advance
      let rhs ← operand
      chained operators operand n (.binary (lhs.span.through rhs.span) op lhs rhs)

/-- Operands with operators of one level between them. -/
def leftAssociative (operators : List (TokenKind × BinaryOp)) (operand : Parser (Expr Unit)) : Parser (Expr Unit) := do
  let lhs ← operand
  chained operators operand (← budget) lhs

/-- Products and quotients. -/
def term (operand : Parser (Expr Unit)) : Parser (Expr Unit) :=
  leftAssociative [(.star, .mul), (.slash, .div)] operand

/-- Sums and differences of terms. -/
def arithmetic (operand : Parser (Expr Unit)) : Parser (Expr Unit) :=
  leftAssociative [(.plus, .add), (.minus, .sub)] (term operand)

/-- Sums and differences compared by order. -/
def comparison (operand : Parser (Expr Unit)) : Parser (Expr Unit) :=
  leftAssociative [(.lt, .lt), (.gt, .gt), (.le, .le), (.ge, .ge)] (arithmetic operand)

/-- Comparisons, compared for equality. -/
def equality (operand : Parser (Expr Unit)) : Parser (Expr Unit) :=
  leftAssociative [(.eq, .eq), (.ne, .ne)] (comparison operand)

/-- An expression, its operation by levels. -/
def layeredExpr (inner : Phrases) : Parser (Expr Unit) := do
  let lhs ← equality (unary inner)
  if ← accept .assign then
    let rhs ← inner.expr
    pure (.assign (lhs.span.through rhs.span) lhs rhs)
  else pure lhs

/-- The phrases that nest less deep than the number says, all their operations by levels. -/
def layeredPhrases : Nat → Phrases
  | 0 => ⟨outOfSteps, outOfSteps, outOfSteps, outOfSteps⟩
  | n + 1 =>
    let inner := layeredPhrases n
    ⟨layeredExpr inner, unary inner, chain inner, block inner⟩

/-- Whether a parser never gives back tokens. -/
def Forward {α : Type} (x : Parser α) : Prop :=
  ∀ c, x.Leads c fun _ c' => c'.budget ≤ c.budget

theorem Forward.of_reads {x : Parser α} {R : List Token → α → Prop} (hx : x.Reads R) : Forward x :=
  fun _ => hx.leads fun _ htakes => htakes.budget_le

theorem Forward.bind {x : Parser α} (hx : Forward x) (hf : ∀ a, Forward (f a)) : Forward (x >>= f) :=
  fun c => .bind fun a c1 hgives b c' hgives' => Nat.le_trans (hf a c1 b c' hgives') (hx c a c1 hgives)

/-- One turn of a loop over operators: goes on from `lhs` if `find` knows the operator that follows, with `again` after
    its operand. -/
def extended (find : TokenKind → Option BinaryOp) (operand : BinaryOp → Parser (Expr Unit))
    (again : Expr Unit → Parser (Expr Unit)) (lhs : Expr Unit) : Parser (Expr Unit) := do
  let token ← current
  match find token.kind with
  | none => pure lhs
  | some op =>
    advance
    let rhs ← operand op
    again (.binary (lhs.span.through rhs.span) op lhs rhs)

variable {x : Parser (Expr Unit)} {find : TokenKind → Option BinaryOp}
  {operand operand' : BinaryOp → Parser (Expr Unit)}
  {again again' : Expr Unit → Parser (Expr Unit)} {lhs : Expr Unit} {c : Cursor} {n m k limit : Nat} {op : BinaryOp}
  {operators : List (TokenKind × BinaryOp)}

theorem current_bind (f : Token → Parser β) (c : Cursor) : (current >>= f) c = f c.token c := rfl

theorem bind_congr_left {y y' : Parser α} (h : y c = y' c) : (y >>= f) c = (y' >>= f) c := by
  rw [bind_apply, bind_apply, h]

theorem extended_none (h : find c.token.kind = none) : extended find operand again lhs c = .ok (lhs, c) := by
  rw [extended, current_bind, h]
  rfl

theorem extended_some (h : find c.token.kind = some op) : extended find operand again lhs c =
    (advance >>= fun _ => operand op >>= fun rhs => again (.binary (lhs.span.through rhs.span) op lhs rhs)) c := by
  rw [extended, current_bind, h]

theorem budget_lt_of_advance {c' : Cursor} (h : advance c = .ok ((), c')) : c'.budget < c.budget := by
  have hlt : advance.Leads c fun _ c' => c'.budget < c.budget :=
      .advance fun htakes => by rw [htakes.budget_one]; exact Nat.lt_succ_self _
  exact hlt () c' h

/-- Turns are alike if they go on alike from all cursors that are farther on. -/
theorem extended_congr (hforward : ∀ op, Forward (operand op))
    (hoperand : ∀ op c', c'.budget < c.budget → operand op c' = operand' op c')
    (hagain : ∀ e c', c'.budget < c.budget → again e c' = again' e c') : extended find operand again lhs c = extended
    find operand' again' lhs c := by
  cases hop : find c.token.kind with
  | none => rw [extended_none hop, extended_none hop]
  | some op =>
    rw [extended_some hop, extended_some hop]
    refine bind_congr_at fun _ c1 hadvance => ?_
    have hlt := budget_lt_of_advance hadvance
    refine .trans (bind_congr_at fun rhs c2 hrhs => hagain _ c2 ?_) (bind_congr_left (hoperand op c1 hlt))
    exact Nat.lt_of_le_of_lt (hforward op c1 rhs c2 hrhs) hlt

theorem Forward.extended (hoperand : ∀ op, Forward (operand op)) (hagain : ∀ e, Forward (again e)) :
    Forward (extended find operand again lhs) := by
  intro c e c' h
  cases hop : find c.token.kind with
  | none =>
    cases (extended_none hop).symm.trans h
    exact Nat.le_refl _
  | some op =>
    obtain ⟨_, c1, hadvance, h⟩ := exists_of_bind_eq_ok ((extended_some hop).symm.trans h)
    obtain ⟨rhs, c2, hrhs, h⟩ := exists_of_bind_eq_ok h
    have hlt := budget_lt_of_advance hadvance
    have hle := hoperand op c1 rhs c2 hrhs
    have hle' := hagain _ c2 e c' h
    omega

/-- A loop over the operators of a level, with as many turns as it takes. -/
def chaining (operators : List (TokenKind × BinaryOp)) (operand : Parser (Expr Unit)) (lhs : Expr Unit) :
    Parser (Expr Unit) := do
  chained operators operand (← budget) lhs

theorem chained_succ : chained operators x (n + 1) lhs = extended (operators.lookup ·) (fun _ => x)
    (chained operators x n) lhs := rfl

/-- The bound on the turns of a loop does not matter. -/
theorem chained_eq_chaining (hx : Forward x) (hn : c.budget ≤ n) :
    chained operators x n lhs c = chaining operators x lhs c := by
  have hsteady : ∀ m, c.budget ≤ m → chained operators x n lhs c = chained operators x m lhs c := by
    induction n generalizing c lhs with
    | zero => exact absurd c.budget_pos (Nat.not_lt.2 hn)
    | succ _ ih =>
      intro m hm
      obtain ⟨m, rfl⟩ : ∃ l, m = l + 1 := ⟨m - 1, by have hpos := c.budget_pos; omega⟩
      rw [chained_succ, chained_succ]
      exact extended_congr (fun _ => hx) (fun _ _ _ => rfl) fun e c' hlt => ih (by omega) m (by omega)
  exact hsteady c.budget (Nat.le_refl _)

theorem chaining_eq (hx : Forward x) (operators : List (TokenKind × BinaryOp)) (lhs : Expr Unit) (c : Cursor) :
    chaining operators x lhs c = extended (operators.lookup ·) (fun _ => x) (chaining operators x) lhs c := by
  have hrun : chaining operators x lhs c = chained operators x (c.left + 1) lhs c := rfl
  rw [hrun, chained_succ]
  exact extended_congr (fun _ => hx) (fun _ _ _ => rfl) fun _ _ hlt => chained_eq_chaining hx (Nat.le_of_lt_succ hlt)

/-- The operator that a token denotes, if it binds tighter than level `limit`. -/
def operatorWithin (limit : Nat) (kind : TokenKind) : Option BinaryOp :=
  (BinaryOp.ofToken? kind).filter (·.level < limit)

/-- Climbing with as many turns as it takes. -/
def climbing (operand : Parser (Expr Unit)) (limit : Nat) (lhs : Expr Unit) : Parser (Expr Unit) := do
  climb operand (← budget) limit lhs

theorem operatorBelow_bind (f : Option BinaryOp → Parser β) (limit : Nat) (c : Cursor) :
    (operatorBelow limit >>= f) c = f (operatorWithin limit c.token.kind) c := rfl

theorem climb_succ_eq (x : Parser (Expr Unit)) (n limit : Nat) (lhs : Expr Unit) : climb x (n + 1) limit lhs =
    extended (operatorWithin limit) (fun op => x >>= climb x n op.level) (climb x n limit) lhs := by
  funext c
  rw [climb_succ, operatorBelow_bind]
  cases hop : operatorWithin limit c.token.kind with
  | none => rw [extended_none hop]; rfl
  | some =>
    rw [extended_some hop]
    simp only [bind_assoc]

theorem Forward.climb (hx : Forward x) (n limit : Nat) (lhs : Expr Unit) : Forward (climb x n limit lhs) := by
  induction n generalizing limit lhs with
  | zero => exact fun _ => .outOfSteps
  | succ _ ih =>
    rw [climb_succ_eq]
    exact .extended (fun op => hx.bind fun first => ih op.level first) fun e => ih limit e

/-- The bound on the turns of climbing does not matter. -/
theorem climb_eq_climbing (hx : Forward x) (hn : c.budget ≤ n) : climb x n limit lhs c = climbing x limit lhs c := by
  have hsteady : ∀ m, c.budget ≤ m → climb x n limit lhs c = climb x m limit lhs c := by
    induction n generalizing c limit lhs with
    | zero => exact absurd c.budget_pos (Nat.not_lt.2 hn)
    | succ n ih =>
      intro m hm
      obtain ⟨m, rfl⟩ : ∃ l, m = l + 1 := ⟨m - 1, by have hpos := c.budget_pos; omega⟩
      rw [climb_succ_eq, climb_succ_eq]
      refine extended_congr (fun op => hx.bind fun first => hx.climb n op.level first) (fun op c1 hlt => ?_)
        fun e c1 hlt => ih (by omega) m (by omega)
      refine bind_congr_at fun first c2 hfirst => ?_
      have hle := hx c1 first c2 hfirst
      exact ih (by omega) m (by omega)
  exact hsteady c.budget (Nat.le_refl _)

theorem climbing_eq (hx : Forward x) (limit : Nat) (lhs : Expr Unit) (c : Cursor) : climbing x limit lhs c =
    extended (operatorWithin limit) (fun op => x >>= climbing x op.level) (climbing x limit) lhs c := by
  have hrun : climbing x limit lhs c = climb x (c.left + 1) limit lhs c := rfl
  rw [hrun, climb_succ_eq]
  refine extended_congr (fun op => hx.bind fun first => hx.climb _ op.level first) (fun op c1 hlt => ?_)
    fun e c1 hlt => climb_eq_climbing hx (Nat.le_of_lt_succ hlt)
  refine bind_congr_at fun first c2 hfirst => climb_eq_climbing hx ?_
  exact Nat.le_trans (hx c1 first c2 hfirst) (Nat.le_of_lt_succ hlt)

theorem Forward.climbing (hx : Forward x) (limit : Nat) (lhs : Expr Unit) : Forward (climbing x limit lhs) :=
  fun c => hx.climb c.budget limit lhs c

theorem climbing_of_none (hx : Forward x) (h : operatorWithin limit c.token.kind = none) :
    climbing x limit lhs c = .ok (lhs, c) := by
  rw [climbing_eq hx, extended_none h]

/-- No operator is left that climbing could take. -/
theorem operatorWithin_of_climbing {e : Expr Unit} {c' : Cursor} (h : climbing x limit lhs c = .ok (e, c')) :
    operatorWithin limit c'.token.kind = none := by
  have hlook : operatorBelow limit c' = .ok (operatorWithin limit c'.token.kind, c') := rfl
  exact (Prod.mk.inj (Except.ok.inj (hlook.symm.trans (operatorBelow_of_climb h)))).1

/-- Whether the operators are those of level `k`. -/
def IsLevel (k : Nat) (operators : List (TokenKind × BinaryOp)) : Prop :=
  ∀ kind, operators.lookup kind = (BinaryOp.ofToken? kind).filter (·.level = k)

theorem IsLevel.level_eq (hlevel : IsLevel k operators) (h : operators.lookup kind = some op) : op.level = k := by
  rw [hlevel, Option.filter_eq_some_iff] at h
  simpa using h.2

theorem operatorWithin_succ_of_some (h : operatorWithin k kind = some op) : operatorWithin (k + 1) kind = some op := by
  rw [operatorWithin, Option.filter_eq_some_iff] at h ⊢
  exact ⟨h.1, by simpa using Nat.lt_succ_of_lt (of_decide_eq_true h.2)⟩

theorem operatorWithin_succ_of_none (hlevel : IsLevel k operators) (h : operatorWithin k kind = none) :
    operatorWithin (k + 1) kind = operators.lookup kind := by
  rw [operatorWithin] at h ⊢
  rw [hlevel]
  cases hop : BinaryOp.ofToken? kind with
  | none => rfl
  | some op =>
    have hge : ¬ op.level < k := by simpa [hop] using h
    have heq : op.level < k + 1 ↔ op.level = k := by omega
    rw [Option.filter_some, Option.filter_some, decide_eq_decide.2 heq]

section Levels

variable (hx : Forward x)
include hx

theorem climbing_bind_of_none {f : Expr Unit → Parser (Expr Unit)} (h : operatorWithin limit c.token.kind = none) :
    (climbing x limit lhs >>= f) c = f lhs c := by
  rw [bind_apply, climbing_of_none hx h]
  rfl

/-- Climbing takes first what binds tighter than its last level, and goes on with the operators of that level. Between
    two of them it takes what belongs to the operand. -/
theorem climbing_succ (hlevel : IsLevel k operators) (lhs : Expr Unit) (c : Cursor) :
    climbing x (k + 1) lhs c = (climbing x k lhs >>= chaining operators (x >>= climbing x k)) c := by
  have hoperand : ∀ limit, Forward (x >>= climbing x limit) := fun limit => hx.bind (hx.climbing limit)
  induction hbudget : c.budget using Nat.strongRecOn generalizing c lhs with
  | ind budget ih =>
    cases htighter : operatorWithin k c.token.kind with
    | some op =>
      -- The same operator is taken on both sides.
      rw [climbing_eq hx, extended_some (operatorWithin_succ_of_some htighter),
        bind_congr_left ((climbing_eq hx k lhs c).trans (extended_some htighter)), bind_assoc advance]
      refine bind_congr_at fun _ c1 hadvance => ?_
      rw [bind_assoc (x >>= climbing x op.level)]
      refine bind_congr_at fun rhs c2 hrhs => ih c2.budget ?_ _ c2 rfl
      have hlt := budget_lt_of_advance hadvance
      have hle := hoperand op.level c1 rhs c2 hrhs
      omega
    | none =>
      have hlook := operatorWithin_succ_of_none hlevel htighter
      rw [climbing_bind_of_none hx htighter, climbing_eq hx, chaining_eq (hoperand k)]
      cases hop : operators.lookup c.token.kind with
      | none => rw [extended_none (hlook.trans hop), extended_none hop]
      | some =>
        rw [extended_some (hlook.trans hop), extended_some hop, hlevel.level_eq hop]
        refine bind_congr_at fun _ c1 hadvance => bind_congr_at fun rhs c2 hrhs => ?_
        have hlt := budget_lt_of_advance hadvance
        have hle := hoperand k c1 rhs c2 hrhs
        -- The operand has taken all that binds tighter.
        obtain ⟨first, c3, -, hclimb⟩ := exists_of_bind_eq_ok hrhs
        rw [ih c2.budget (by omega) _ c2 rfl, climbing_bind_of_none hx (operatorWithin_of_climbing hclimb)]

theorem leftAssociative_climbing (hlevel : IsLevel k operators) :
    leftAssociative operators (x >>= climbing x k) = x >>= climbing x (k + 1) := by
  have hlayer : leftAssociative operators (x >>= climbing x k) = (x >>= climbing x k) >>= chaining operators
      (x >>= climbing x k) := rfl
  rw [hlayer, bind_assoc]
  funext c
  exact bind_congr_at fun lhs c1 _ => (climbing_succ hx hlevel lhs c1).symm

theorem climbing_zero : x >>= climbing x 0 = x := by
  funext c
  have hnone : ∀ kind, operatorWithin 0 kind = none := fun kind => by simp [operatorWithin]
  calc (x >>= climbing x 0) c = (x >>= pure) c := bind_congr_at fun lhs c1 _ => climbing_of_none hx (hnone _)
    _ = x c := by rw [bind_pure]

/-- Climbing through all levels is the loop of the last level over those below it. -/
theorem operation_eq_equality : operation x = equality x := by
  have hterm : term x = x >>= climbing x 1 := by
    calc term x = term (x >>= climbing x 0) := by rw [climbing_zero hx]
      _ = x >>= climbing x 1 := leftAssociative_climbing hx fun kind => by cases kind <;> rfl
  have harithmetic : arithmetic x = x >>= climbing x 2 := by
    rw [arithmetic, hterm]
    exact leftAssociative_climbing hx fun kind => by cases kind <;> rfl
  have hcomparison : comparison x = x >>= climbing x 3 := by
    rw [comparison, harithmetic]
    exact leftAssociative_climbing hx fun kind => by cases kind <;> rfl
  rw [equality, hcomparison]
  exact (leftAssociative_climbing hx fun kind => by cases kind <;> rfl).symm

end Levels

theorem expr_eq_layeredExpr {inner : Phrases} (hinner : inner.Reads) : expr inner = layeredExpr inner := by
  rw [expr, layeredExpr, operation_eq_equality (.of_reads (unary_reads hinner))]

theorem phrases_eq_layeredPhrases (n : Nat) : phrases n = layeredPhrases n := by
  induction n with
  | zero => rfl
  | succ n ih => rw [phrases, layeredPhrases, ← ih, expr_eq_layeredExpr (phrases_read n)]

/-- Whatever the tokens are, climbing by precedence gives the same as a parser for each level, from the same tokens, or
    fails in the same way; so it is for operations at any depth. -/
theorem climbs_as_layered (n : Nat) : operation (unary (phrases n)) = equality (unary (layeredPhrases n)) := by
  rw [operation_eq_equality (.of_reads (unary_reads (phrases_read n))), phrases_eq_layeredPhrases]

end LocLang.Parser
