import LocLang.Proofs.Analysis.Strictness
import LocLang.Proofs.Analysis.Trimmed
import LocLang.Proofs.Parser.Steps

namespace LocLang

namespace Lower

/-- Whether no block is open after the work. -/
def Closes (x : Lower Unit) : Prop :=
  ∀ ⦃d u d'⦄, x.Gives d u d' → d'.current = none

section Closing

variable (env : Env)

mutual

theorem statement_closes : ∀ stmt : Stmt Ty, stmt.terminates = true → Closes (statement env stmt)
  | .ret _ none, _, _, _, _, h => by
    obtain ⟨b, -, rfl⟩ := gives_terminate.1 h
    rfl
  | .ret _ (some _), _, _, _, _, h => by
    obtain ⟨v, d1, -, h⟩ := gives_bind.1 h
    obtain ⟨w, d2, -, h⟩ := gives_bind.1 h
    obtain ⟨b, -, rfl⟩ := gives_terminate.1 h
    rfl
  | .block body, hterminates, _, _, _, h => block_closes body hterminates h
  | .decl _ _ _ _ _ _, h, _, _, _, _ | .cond _, h, _, _, _, _ | .loop _ _ _, h, _, _, _, _ | .select _, h, _, _, _, _
  | .expr _ _, h, _, _, _, _ => by simp only [Stmt.terminates, Bool.false_eq_true] at h

theorem block_closes : ∀ b : Block Ty, b.terminates = true → Closes (block env b)
  | .mk _ stmts, hterminates, _, _, _, h => by
    obtain ⟨_, d1, -, h⟩ := gives_bind.1 h
    obtain ⟨_, d2, hstmts, h⟩ := gives_bind.1 h
    obtain rfl := gives_popScope.1 h
    have hclosed := stmtList_closes stmts hterminates hstmts
    exact hclosed

theorem stmtList_closes : ∀ stmts : List (Stmt Ty), Stmt.anyTerminates stmts = true → Closes (stmtList env stmts)
  | [], hterminates, _, _, _, _ => by simp only [Stmt.anyTerminates, Bool.false_eq_true] at hterminates
  | stmt :: stmts, hterminates, _, _, _, h => by
    rw [Stmt.anyTerminates, Bool.or_eq_true] at hterminates
    obtain ⟨_, d1, hstmt, h⟩ := gives_bind.1 h
    obtain ⟨_, d2, hopen, h⟩ := gives_bind.1 h
    obtain ⟨rfl, rfl⟩ := gives_isOpen.1 hopen
    cases hcurrent : d2.current with
    | none =>
      rw [hcurrent] at h
      obtain ⟨-, rfl⟩ := gives_pure.1 h
      exact hcurrent
    | some =>
      rw [hcurrent] at h
      rcases hterminates with hfirst | hrest
      · rw [statement_closes stmt hfirst hstmt] at hcurrent
        cases hcurrent
      · exact stmtList_closes stmts hrest h

end

end Closing

/-- Nothing is lowered after work that leaves no block open. -/
theorem Closes.bind_isOpen {x : Lower Unit} (hx : Closes x) (rest rest' : Lower Unit) :
    (do x; if ← isOpen then rest) = (do x; if ← isOpen then rest') := by
  funext d
  cases hrun : x.run d with
  | error fault =>
    have hstop (y : Unit → Lower Unit) : (x >>= y).run d = .error fault := by
      rw [StateT.run_bind, hrun]
      rfl
    exact (hstop _).trans (hstop _).symm
  | ok result =>
    have hgives : x.Gives d result.1 result.2 := hrun
    have hend (y : Lower Unit) : (do x; if ← isOpen then y).run d = .ok ((), result.2) := by
      refine gives_bind.2 ⟨result.1, result.2, hgives, gives_bind.2 ⟨false, result.2, gives_isOpen.2 ⟨?_, rfl⟩, rfl⟩⟩
      rw [hx hgives]
      rfl
    exact (hend rest).trans (hend rest').symm

theorem nextTest_trimmedList {μ : Type} (n k : Nat) (arms : List (Arm μ)) :
    nextTest n k (Arm.trimmedList arms) = nextTest n k arms := by
  cases arms <;> rfl

theorem target_trimmed {μ : Type} (place : Expr μ) : target place.trimmed = target place := by
  cases place <;> simp only [Expr.trimmed, target]

section Trees

variable (env : Env)

mutual

theorem expr_trimmed : ∀ e : Expr Ty, expr env e.trimmed = expr env e
  | .literal _ _ | .ident _ _ | .variant _ _ _ => by simp only [Expr.trimmed]
  | .binary _ _ lhs rhs => by simp only [Expr.trimmed, expr, expr_trimmed lhs, expr_trimmed rhs]
  | .assign _ _ rhs => by simp only [Expr.trimmed, expr, target_trimmed, expr_trimmed rhs]
  | .call _ (.ident _ name) args => by
    have hargs (types : List MachineTy) := arguments_trimmed name types args
    cases args with
    | nil => simp only [Expr.trimmed, Expr.trimmedList]
    | cons arg =>
      have harg := expr_trimmed arg
      simp only [Expr.trimmedList] at hargs
      simp only [Expr.trimmed, Expr.trimmedList, expr, harg, hargs]
  | .call _ (.literal _ _) _ | .call _ (.variant _ _ _) _ | .call _ (.binary _ _ _ _) _ | .call _ (.assign _ _ _) _
  | .call _ (.call _ _ _) _ | .call _ (.paren _ _) _ | .call _ (.select _) _ => by simp only [Expr.trimmed, expr]
  | .paren _ inner => by simp only [Expr.trimmed, expr, expr_trimmed inner]
  | .select m => by simp only [Expr.trimmed, expr, Match.note_trimmed, selection_trimmed m.note m]

theorem arguments_trimmed (name : String) : ∀ (types : List MachineTy) (es : List (Expr Ty)),
    arguments env name types (Expr.trimmedList es) = arguments env name types es
  | _, [] => by simp only [Expr.trimmedList]
  | [], _ :: _ => by simp only [Expr.trimmedList, arguments]
  | type :: types, e :: es => by
    simp only [Expr.trimmedList, arguments, expr_trimmed e, arguments_trimmed name types es]

theorem selection_trimmed (type : Ty) : ∀ m : Match Ty, selection env type m.trimmed = selection env type m
  | .mk _ _ scrutinee arms => by
    simp only [Match.trimmed, selection, expr_trimmed scrutinee, nextTest_trimmedList, armList_trimmed _ _ _ _ arms]

theorem armList_trimmed (n : Nat) (v : Operand) (slot : Option Slot) (k : Nat) :
    ∀ arms : List (Arm Ty), armList env n v slot k (Arm.trimmedList arms) = armList env n v slot k arms
  | [] => by simp only [Arm.trimmedList]
  | arm :: arms => by
    simp only [Arm.trimmedList, armList, Arm.pattern_trimmed, nextTest_trimmedList, armBody_trimmed slot arm,
      armList_trimmed n v slot (k + 1) arms]

theorem armBody_trimmed (slot : Option Slot) : ∀ arm : Arm Ty, armBody env slot arm.trimmed = armBody env slot arm
  | .block _ _ body => by simp only [Arm.trimmed, armBody, block_trimmed body]
  | .value _ _ value => by simp only [Arm.trimmed, armBody, expr_trimmed value]

theorem block_trimmed : ∀ b : Block Ty, block env b.trimmed = block env b
  | .mk _ stmts => by simp only [Block.trimmed, block, stmtList_trimmed stmts]

theorem stmtList_trimmed : ∀ stmts : List (Stmt Ty), stmtList env (Stmt.trimmedList stmts) = stmtList env stmts
  | [] => by simp only [Stmt.trimmedList]
  | stmt :: stmts => by
    rw [Stmt.trimmedList]
    by_cases hterminates : stmt.terminates
    · rw [if_pos hterminates, stmtList, stmtList, statement_trimmed stmt]
      exact (statement_closes env stmt hterminates).bind_isOpen _ _
    · rw [if_neg hterminates, stmtList, stmtList, statement_trimmed stmt, stmtList_trimmed stmts]

theorem chain_trimmed : ∀ c : IfChain Ty, chain env c.trimmed = chain env c
  | .only _ condition body => by simp only [IfChain.trimmed, chain, expr_trimmed condition, block_trimmed body]
  | .orElse _ condition body other => by
    simp only [IfChain.trimmed, chain, expr_trimmed condition, block_trimmed body, block_trimmed other]
  | .orIf _ condition body next => by
    simp only [IfChain.trimmed, chain, expr_trimmed condition, block_trimmed body, chain_trimmed next]

theorem statement_trimmed : ∀ stmt : Stmt Ty, statement env stmt.trimmed = statement env stmt
  | .block body => by simp only [Stmt.trimmed, statement, block_trimmed body]
  | .decl _ _ _ _ _ none => by simp only [Stmt.trimmed]
  | .decl _ _ _ _ _ (some init) => by simp only [Stmt.trimmed, statement, initializer, expr_trimmed init]
  | .cond chained => by simp only [Stmt.trimmed, statement, chain_trimmed chained]
  | .loop _ condition body => by simp only [Stmt.trimmed, statement, expr_trimmed condition, block_trimmed body]
  | .select m => by simp only [Stmt.trimmed, statement, selection_trimmed .void m]
  | .ret _ none => by simp only [Stmt.trimmed]
  | .ret _ (some value) => by simp only [Stmt.trimmed, statement, expr_trimmed value]
  | .expr _ value => by simp only [Stmt.trimmed, statement, expr_trimmed value]

end

end Trees

theorem function_trimmed (enums : EnumTable) (f : FuncDef Ty) : function enums f.trimmed = function enums f := by
  have hbody (env : Env) : block env f.trimmed.body = block env f.body := block_trimmed env f.body
  have hparams (s : Signature) : f.trimmed.irParams s = f.irParams s := rfl
  simp only [function, hbody, hparams]
  rfl

theorem functions_trimmed (enums : EnumTable) (fs : List (FuncDef Ty)) :
    functions enums (fs.map (·.trimmed)) = functions enums fs := by
  induction fs with
  | nil => rfl
  | cons _ _ ih => rw [List.map_cons, functions, functions, function_trimmed, ih]

theorem signatures_trimmed {a a' : Analysis} (h : a'.funcs = a.funcs) (fs : List (FuncDef Ty)) :
    signatures a' (fs.map (·.trimmed)) = signatures a fs := by
  have hfunction (name : String) : a'.function? name = a.function? name := by
    rw [Analysis.function?, h, Analysis.function?]
  induction fs with
  | nil => rfl
  | cons _ _ ih =>
    rw [List.map_cons, signatures, signatures, ih]
    simp only [hfunction]
    rfl

end Lower

namespace Program

/-- Dead statements leave no trace in code: without them a program without errors has no errors either and is lowered to
    the same module, which is the same text however modules are written out. -/
theorem code_trimmed (p : Program Unit) (strict : Bool) (herrors : (p.analyze strict).hasErrors = false) :
    (p.trimmed.analyze strict).hasErrors = false ∧ ∀ target : Target, ∃ m, (p.analyze strict).lower target = .ok m ∧
      (p.trimmed.analyze strict).lower target = .ok m := by
  obtain ⟨herrors', henums, hfuncs, hchecked⟩ := analyze_trimmed herrors
  refine ⟨herrors', fun target => ?_⟩
  obtain ⟨m, hlower, -⟩ := Lower.program_lowers (accepts_of_hasErrors herrors) herrors target
  have hprogram : Lower.program (p.trimmed.analyze strict) = Lower.program (p.analyze strict) := by
    rw [Lower.program, Lower.program, hchecked, henums, Lower.signatures_trimmed hfuncs, Lower.functions_trimmed]
  exact ⟨m, hlower, (Analysis.lower_eq herrors' herrors hprogram target).trans hlower⟩

/-- Dead statements in a function, a loop, a block and an arm: declarations, a match with a value, and a format that is
    used nowhere else. -/
def deadEnds : Source :=
  .ofText "fn f(n: i32) -> i32 {
  while n < 3 { { return n; let n: i32 = 1; } let m: i32 = match n { k => k }; }
  match n { 1 => { return 2; print(true); } }
  return 0;
  print(1.5);
}"

theorem code_trimmed_deadEnds : ∃ p, deadEnds.parse = .ok p ∧ (p.analyze false).hasErrors = false ∧
      (p.trimmed.analyze false).diagnostics.length < (p.analyze false).diagnostics.length ∧
      (p.trimmed.analyze false).hasErrors = false ∧ ∃ m, (p.analyze false).lower {} = .ok m ∧
        (p.trimmed.analyze false).lower {} = .ok m := by
  obtain ⟨p, hparse, herrors, hfewer⟩ : ∃ p, deadEnds.parse = .ok p ∧ (p.analyze false).hasErrors = false ∧
      (p.trimmed.analyze false).diagnostics.length < (p.analyze false).diagnostics.length :=
    exists_eq_ok_of_any (by decide +kernel)
  obtain ⟨herrors', hcode⟩ := code_trimmed p false herrors
  exact ⟨p, hparse, herrors, hfewer, herrors', hcode {}⟩

end Program

end LocLang
