import LocLang.Proofs.Analysis.Alike
import LocLang.Proofs.Lowering.Program

namespace LocLang

open LocLang.Expr

namespace Lower

variable {s : Scopes Symbol} {env : Walk.Env} {move : Pos → Pos}

theorem patternTest_moved (enums : EnumTable) (v : Operand) (p : Pattern) :
    patternTest enums v (p.moved move) = patternTest enums v p := by
  cases p with
  | variant _ _ _ args => cases args <;> simp only [Pattern.moved, patternTest]
  | _ => simp only [Pattern.moved, patternTest]

theorem nextTest_bare {μ : Type} (n k : Nat) (arms : List (Arm μ)) :
    nextTest n k (Arm.plainList (Arm.movedList move arms)) = nextTest n k arms := by
  cases arms <;> rfl

section Tree

attribute [local simp] Expr.moved Expr.plain Match.moved Match.plain Arm.moved Arm.plain Block.moved Block.plain
  IfChain.moved IfChain.plain Stmt.moved Stmt.plain Expr.movedList Expr.plainList Arm.movedList Arm.plainList
  Stmt.movedList Stmt.plainList expr arguments selection armList armBody block stmtList chain statement

variable (low : Env)

mutual

/-- Parentheses are looked through. In a checked tree none of them is around the target of an assignment or around a
    callee, where they would not be. -/
theorem expr_bare {s : Scopes Symbol} {expected type : Ty} :
    ∀ e : Expr Ty, e.Checked env s expected type → expr low (e.moved move).plain = expr low e
  | .literal _ _, _ | .ident _ _, _ | .variant _ _ _, _ => by simp
  | .binary _ _ lhs rhs, ⟨_, _, hlhs, hrhs, _⟩ => by
    simp [expr_bare lhs hlhs, expr_bare rhs hrhs]
  | .assign _ _ rhs, h => by
    obtain ⟨_, _, _, _, rfl, -, -, hrhs, -⟩ := h.of_assign
    simp [target, expr_bare rhs hrhs]
  | .call _ _ [], h => by
    obtain ⟨_, _, _, rfl, -⟩ := h.of_call
    simp
  | .call _ _ (arg :: args), h => by
    obtain ⟨_, name, _, rfl, -, -, -, hargs, -⟩ := h.of_call
    have hall (types : List MachineTy) := arguments_bare name types (arg :: args) hargs
    obtain ⟨⟨_, harg⟩, -⟩ := hargs
    simp at hall
    simp [expr_bare arg harg, hall]
  | .paren _ inner, h => by simp [expr_bare inner h]
  | .select m, h => by simp [Match.note_plain, Match.note_moved, selection_bare m.note m h]

theorem arguments_bare (name : String) {s : Scopes Symbol} {params : List Ty} :
    ∀ (types : List MachineTy) (es : List (Expr Ty)), CheckedList env s params es →
      arguments low name types (plainList (movedList move es)) = arguments low name types es
  | _, [], _ => by simp
  | [], _ :: _, _ => by simp
  | _ :: types, e :: es, ⟨⟨_, he⟩, hes⟩ => by
    simp [expr_bare e he, arguments_bare name types es hes]

theorem selection_bare (note : Ty) {s : Scopes Symbol} {expected type : Ty} :
    ∀ m : Match Ty, m.Checked env s expected type → selection low note (m.moved move).plain = selection low note m
  | .mk _ _ scrutinee arms, ⟨_, _, hscrutinee, harms, _⟩ => by
    simp [expr_bare scrutinee hscrutinee, nextTest_bare, armList_bare _ _ _ _ arms harms]

theorem armList_bare (n : Nat) (v : Operand) (slot : Option Slot) (k : Nat) {s : Scopes Symbol}
    {expected type : Ty} {enumName : Option String} {sofar joined : Ty} :
    ∀ arms : List (Arm Ty), Arm.CheckedList env s expected type enumName sofar joined arms →
      armList low n v slot k (Arm.plainList (Arm.movedList move arms)) = armList low n v slot k arms
  | [], _ => by simp
  | arm :: arms, ⟨_, _, harm, harms⟩ => by
    simp [Arm.pattern_plain, Arm.pattern_moved, patternTest_moved, nextTest_bare, armBody_bare slot arm harm,
      armList_bare n v slot (k + 1) arms harms]

theorem armBody_bare (slot : Option Slot) {s : Scopes Symbol} {expected sofar joined : Ty} :
    ∀ arm : Arm Ty, arm.Checked env s expected sofar joined →
    armBody low slot (arm.moved move).plain = armBody low slot arm
  | .block _ _ body, h => by simp [block_bare body h.1]
  | .value _ _ value, ⟨_, hvalue, _⟩ => by
    simp [expr_bare value hvalue]

theorem block_bare {s : Scopes Symbol} : ∀ b : Block Ty, b.Checked env s → block low (b.moved move).plain = block low b
  | .mk _ stmts, h => by simp [stmtList_bare stmts h]

theorem stmtList_bare {s : Scopes Symbol} : ∀ stmts : List (Stmt Ty), Stmt.CheckedList env s stmts →
    stmtList low (Stmt.plainList (Stmt.movedList move stmts)) = stmtList low stmts
  | [], _ => by simp
  | stmt :: stmts, h => by simp [statement_bare stmt h.1, stmtList_bare stmts h.2]

theorem chain_bare {s : Scopes Symbol} : ∀ c : IfChain Ty, c.Checked env s →
    chain low (c.moved move).plain = chain low c
  | .only _ condition body, ⟨⟨_, hcondition⟩, hbody⟩ => by
    simp [expr_bare condition hcondition, block_bare body hbody]
  | .orElse _ condition body other, ⟨⟨_, hcondition⟩, hbody, hother⟩ => by
    simp [expr_bare condition hcondition, block_bare body hbody, block_bare other hother]
  | .orIf _ condition body next, ⟨⟨_, hcondition⟩, hbody, hnext⟩ => by
    simp [expr_bare condition hcondition, block_bare body hbody, chain_bare next hnext]

theorem statement_bare {s : Scopes Symbol} :
    ∀ stmt : Stmt Ty, stmt.Checked env s → statement low (stmt.moved move).plain = statement low stmt
  | .block body, h => by simp [block_bare body h]
  | .decl _ _ _ _ _ none, _ => by simp [TypeLabel.name_moved]
  | .decl _ _ _ _ _ (some init), ⟨_, _, _, hinit⟩ => by
    simp [initializer, TypeLabel.name_moved, expr_bare init hinit]
  | .cond chained, h => by simp [chain_bare chained h]
  | .loop _ condition body, ⟨⟨_, hcondition⟩, hbody⟩ => by
    simp [expr_bare condition hcondition, block_bare body hbody]
  | .select m, ⟨_, hm⟩ => by
    simp [selection_bare .void m hm]
  | .ret _ none, _ => by simp
  | .ret _ (some value), ⟨_, _, hvalue⟩ => by
    simp [expr_bare value hvalue]
  | .expr _ value, ⟨_, hvalue⟩ => by
    simp [expr_bare value hvalue]

end

end Tree

variable {enums : EnumTable}

theorem function_bare {f : FuncDef Ty} (h : f.Checked enums s) : function enums f.bare = function enums f := by
  have hnames : f.bare.params.map (·.name) = f.params.map (·.name) := by
    rw [FuncDef.bare, FuncDef.plain, FuncDef.moved, List.map_map, List.map_map]
    rfl
  have hparams (signature : Signature) : f.bare.irParams signature = f.irParams signature := by
    unfold FuncDef.irParams
    rw [FuncDef.bare, FuncDef.plain, FuncDef.moved, List.zipWith_map_left, List.zipWith_map_left]
    rfl
  have hbody (low : Env) : block low f.bare.body = block low f.body := block_bare low f.body h.body
  have hname : f.bare.name = f.name := rfl
  simp only [function, hname, hparams, hnames, hbody]

theorem functions_bare {fs : List (FuncDef Ty)} (h : ∀ f ∈ fs, f.Checked enums s) :
    functions enums (fs.map (·.bare)) = functions enums fs := by
  induction fs with
  | nil => rfl
  | cons f _ ih =>
    rw [List.map_cons, functions, functions, function_bare (h f List.mem_cons_self), ih fun g hg =>
      h g (List.mem_cons_of_mem _ hg)]

theorem declareAll_bare (enums : EnumTable) (t : Scopes Binding) (fs : List (FuncDef Ty)) :
    declareAll enums t (fs.map (·.bare)) = declareAll enums t fs := by
  have hsignature (f : FuncDef Ty) : f.bare.signature enums = f.signature enums := by
    have hresult : enums.labelType f.bare.result = enums.labelType f.result := Walk.labelType_moved enums f.result
    have hparam (p : Param) : enums.labelType (some (p.moved fun _ => .origin).plain.label) =
        enums.labelType (some p.label) :=
      Walk.labelType_moved enums (some p.label)
    rw [FuncDef.signature_eq, FuncDef.signature_eq, hresult]
    simp [FuncDef.bare, FuncDef.plain, FuncDef.moved, hparam]
  unfold declareAll
  rw [List.foldl_map]
  simp only [hsignature]
  rfl

end Lower

namespace Program

/-- Accepted programs that are the same when they are bare have the same code. -/
theorem lower_eq_of_bare {p q : Program Unit} {strict strict' : Bool} (hp : (p.analyze strict).hasErrors = false)
    (hq : (q.analyze strict').hasErrors = false) (hbare : p.bare = q.bare) (target : Target) :
    (q.analyze strict').lower target = (p.analyze strict).lower target := by
  have ha := accepts_of_hasErrors hp
  have hb := accepts_of_hasErrors hq
  have henums : (p.analyze strict).enums = (q.analyze strict').enums := by
    have htable (r : Program Unit) : (r.bare.enums.foldl Header.addEnum {}).enums =
        (r.enums.foldl Header.addEnum {}).enums := by
      rw [enums_bare, Header.addEnums_moved]
      rfl
    rw [enums_analyze, enums_analyze, ← htable, hbare, htable]
  have hchecked := ha.bare_eq hb henums hbare
  have hfunctions : Lower.functions (q.analyze strict').enums (q.analyze strict').checked =
      Lower.functions (p.analyze strict).enums (p.analyze strict).checked := by
    rw [← Lower.functions_bare hb.checked, ← hchecked, ← henums, Lower.functions_bare ha.checked]
  have hscopes : Lower.declareAll (q.analyze strict').enums .empty (q.analyze strict').checked =
      Lower.declareAll (p.analyze strict).enums .empty (p.analyze strict).checked := by
    rw [← Lower.declareAll_bare, ← hchecked, ← henums, Lower.declareAll_bare]
  obtain ⟨gs, d, hgives, -⟩ := Lower.functions_lower ha (p.analyze strict).checked (fun _ hf => hf)
    (d := { scopes := Lower.declareAll (p.analyze strict).enums .empty (p.analyze strict).checked }) rfl
  have hgives' := hgives
  rw [← hfunctions, ← hscopes] at hgives'
  rw [Lower.lower_of_functions ha hp hgives target, Lower.lower_of_functions hb hq hgives' target]

/-- Modes, parentheses and places have no effect on code: two programs without errors that are the same without them are
    lowered to the same module, which is the same text however modules are written out. -/
theorem code_of_bare {p q : Program Unit} {strict strict' : Bool} (hp : (p.analyze strict).hasErrors = false)
    (hq : (q.analyze strict').hasErrors = false) (hbare : p.bare = q.bare) (target : Target) :
    ∃ m, (p.analyze strict).lower target = .ok m ∧ (q.analyze strict').lower target = .ok m := by
  obtain ⟨m, hlower, -⟩ := Lower.program_lowers (accepts_of_hasErrors hp) hp target
  exact ⟨m, hlower, (lower_eq_of_bare hp hq hbare target).trans hlower⟩

/-- A function with modes and parentheses wherever they can stand. -/
def wrapped : Program Unit :=
  let here (line col stop : Int) : Span := ⟨⟨line, col⟩, ⟨line, stop⟩⟩
  let label (s : Span) (name : String) : TypeLabel := .mk s name []
  let count : Expr Unit := .paren (here 2 14 17) (.ident (here 2 15 16) "n")
  let next : Expr Unit := .paren (here 3 9 16)
    (.binary (here 3 10 15) .sub (.ident (here 3 10 11) "m") (.paren (here 3 12 15) (.literal (here 3 13 14) (.int 1))))
  { defs :=
      [.func
        { span := here 0 0 1, name := "steps", nameSpan := here 0 3 8,
          params := [⟨here 0 9 23, ⟨.asLocal, .unspecified⟩, "n", label (here 0 18 23) "i64"⟩],
          result := some (label (here 0 28 31) "i64"),
          body := .mk (here 0 32 33)
            [.decl (here 1 2 30) ⟨.asGlobal, .unique⟩ "m" (here 1 20 21) (label (here 1 23 26) "i64") (some count),
             .expr (here 3 2 17) (.assign (here 3 2 16) (.ident (here 3 2 3) "m") next),
             .ret (here 4 2 60) (some (.select (.mk (here 4 9 59) () (.paren (here 4 15 18) (.ident (here 4 16 17) "m"))
               [.value (here 4 21 29) (.literal (here 4 21 22) (.int 0))
                (.paren (here 4 26 29) (.literal (here 4 27 28) (.int 0))),
                .value (here 4 31 40) (.bind (here 4 31 32) "k")
                  (.call (here 4 36 44) (.ident (here 4 36 41) "steps")
                    [.paren (here 4 42 43) (.ident (here 4 42 43) "k")])])))] }] }

theorem code_of_bare_wrapped : (wrapped.analyze true).hasErrors = false ∧
    (wrapped.bare.analyze false).hasErrors = false ∧
    wrapped.bare = wrapped.bare.bare ∧ ∃ m, (wrapped.analyze true).lower {} = .ok m ∧
      (wrapped.bare.analyze false).lower {} = .ok m :=
  have herrors : (wrapped.analyze true).hasErrors = false := by decide +kernel
  have herrors' : (wrapped.bare.analyze false).hasErrors = false := by decide +kernel
  ⟨herrors, herrors', rfl, code_of_bare herrors herrors' rfl {}⟩

end Program

end LocLang
