import LocLang.Proofs.Semantics.Control

namespace LocLang.Site

open Lower List

variable {platform : Platform} {c : Fragment} {fuel : Nat} {site : Site} {locals : Locals} {w : World} {m : Machine}
  {d d' : Draft}

/-- What is assigned to is a variable. -/
theorem Agrees.variable {name : String} {slot : Slot} (h : site.Agrees locals w d m)
    (hfinds : d.scopes.Finds name (.slot slot)) :
    ∃ index type old, locals.lookup name = some (.cell index type) ∧ type.isInteger ∧ slot.type = type.machine ∧
      (index, slot.name) ∈ locals.links d.scopes.inner.flatten ∧ w.cells[index]? = some old ∧
      old.type.machine = slot.type ∧ m.top.memory slot.name = some (some old.word) := by
  rcases h.lookup hfinds with ⟨l, hl, hagrees, hlinks⟩ | ⟨-, entry, hentry, -, hvalue⟩
  · cases l with
    | cell index type =>
      obtain ⟨hinteger, htype, -, old, hold, holdType, hmemory⟩ := hagrees
      exact ⟨index, type, old, hl, hinteger, htype, hlinks index type slot rfl rfl, hold, holdType, hmemory⟩
    | value => cases hagrees
  · obtain ⟨s, hs⟩ := site.functions_only entry hentry
    rw [hs] at hvalue
    cases hvalue

/-- What is called is a function of the program. -/
theorem Agrees.function {name : String} {s : Signature} (hserves : site.Serves platform c fuel)
    (h : site.Agrees locals w d m) (hfinds : d.scopes.Finds name (.function s)) :
    locals.lookup name = none ∧ ∃ f, c.functions.find? (·.name = name) = some f ∧ s = f.signature c.enums := by
  rcases h.lookup hfinds with ⟨l, -, hagrees, -⟩ | ⟨hlookup, entry, hentry, rfl, hvalue⟩
  · cases l <;> cases hagrees
  · obtain ⟨f, hf, hsignature⟩ := hserves.base entry hentry
    rw [hsignature] at hvalue
    cases hvalue
    exact ⟨hlookup, f, hf, rfl⟩

/-- A function in which all holds that has to throughout. -/
structure Served (platform : Platform) (c : Fragment) (fuel : Nat) extends Site where
  serves : toSite.Serves platform c fuel

section Trees

variable (site : Served platform c fuel)

mutual

theorem expr_evaluates {locals : Locals} {K : Held} : ∀ e : Expr Ty, e.Discrete c →
    site.Evaluates platform fuel locals K (expr c.lower e) (Eval.expr (c.eval fuel) locals e) fun v x => .value x v
  | .literal _ _, hdiscrete => by
    obtain ⟨x, hx⟩ := Option.isSome_iff_exists.1 hdiscrete.2
    rw [expr, Eval.expr, hx]
    exact .pure fun _ => Constant.ofLiteral_eq hdiscrete.1 hx
  | .ident _ name, _ => .load name
  | .variant _ _ _, hdiscrete => by
    obtain ⟨k, hk, hlt⟩ := hdiscrete
    rw [expr, discriminant, Fragment.lower, hk, Eval.expr, Eval.variant, Fragment.eval, hk]
    exact .pure fun _ => Constant.int_discriminant hlt
  | .binary _ op lhs rhs, hdiscrete =>
    (expr_evaluates lhs hdiscrete.1).bind fun _ _ => (expr_evaluates rhs hdiscrete.2).bind fun _ _ =>
      .binary op (Held.has_last.and _) Held.has_last
  | .assign _ place rhs, hdiscrete => by
    cases place with
    | ident _ name =>
      refine ⟨expr_grows _ _, fun {w d d' m v} hgives hcovers h _ => ?_⟩
      obtain ⟨slot, d1, htarget, hrest⟩ := gives_bind.1 hgives
      obtain ⟨b, d0, hlookup, hslot⟩ := gives_bind.1 htarget
      obtain ⟨hfinds, rfl⟩ := gives_lookup.1 hlookup
      cases b with
      | slot =>
        obtain ⟨rfl, rfl⟩ := gives_pure.1 hslot
        obtain ⟨v1, d2, hrhs, hgives⟩ := gives_bind.1 hrest
        obtain ⟨v2, d3, hconvert, hgives⟩ := gives_bind.1 hgives
        obtain ⟨_, hemit, rfl⟩ := gives_map.1 hgives
        have honward2 := (expr_grows _ _).draft hrhs
        have honward3 := (Grows.convert _ _).draft hconvert
        have hcovers3 := hcovers.of_grows ((Grows.emit _).draft hemit)
        have hcovers2 := hcovers3.of_grows honward3
        have hfinds3 : d3.scopes.Finds name (.slot slot) := by
          rw [(Steady.convert _ _).scopes_eq hconvert, (expr_steady _ _).scopes_eq hrhs]
          exact hfinds
        obtain ⟨index, type, -, hl, hinteger, htype, -⟩ := h.agrees.variable hfinds
        rw [htype] at hconvert
        rw [Eval.expr, hl]
        refine ((expr_evaluates rhs hdiscrete).start hrhs hcovers2 h).bind fun x w1 m1 h1 => ?_
        refine .of_reaches (h1.state.convert h1.holds hinteger hconvert hcovers3) fun m2 h2 => ?_
        obtain ⟨index', type', old, hl', -, -, hlink, hold, holdType, hmemory⟩ := h2.state.agrees.variable hfinds3
        rw [hl] at hl'
        cases hl'
        have hxtype : (x.convert type).type.machine = old.type.machine := by
          rw [holdType, htype]
          exact Value.machine_ofInt hinteger
        refine .of_reaches (h2.state.assign h2.holds hlink hold hmemory hxtype hemit hcovers) fun m' hm' => ?_
        refine .of_run_eq (u := { w1 with cells := w1.cells.set index (x.convert type) }) rfl ?_
        exact (hm'.after h2.follows honward3.registers).after h1.follows honward2.registers
      | value _ | function _ => exact absurd hslot gives_fault
    | _ => simp only [Expr.Discrete] at hdiscrete
  | .call _ callee args, hdiscrete => by
    cases callee with
    | ident _ name =>
      obtain ⟨hcalls, hargs⟩ := hdiscrete
      rw [Fragment.Calls] at hcalls
      by_cases hprint : name = printName
      · rw [if_pos hprint] at hcalls
        cases args with
        | nil => cases hcalls
        | cons arg =>
          obtain rfl := length_eq_zero_iff.1 (Nat.succ_inj.1 hcalls)
          rw [expr_call_ident, if_pos hprint, Eval.expr, if_pos (show name = "print" from hprint)]
          exact (expr_evaluates arg hargs.1).bind fun _ _ =>
            (Evaluates.print Held.has_last).bind fun _ _ => .pure fun _ => rfl
      · rw [if_neg hprint] at hcalls
        obtain ⟨f, hf, hlength⟩ := hcalls
        refine ⟨expr_grows _ _, fun hgives hcovers h hK => ?_⟩
        rw [expr_call_ident, if_neg hprint] at hgives
        obtain ⟨s, d1, hcallee, hgives⟩ := gives_bind.1 hgives
        obtain ⟨hfinds, rfl⟩ := gives_callee.1 hcallee
        obtain ⟨hlookup, f', hf', rfl⟩ := h.agrees.function site.serves hfinds
        rw [hf] at hf'
        cases hf'
        have hname : f.name = name := by simpa using find?_some hf
        have hmem := mem_of_find?_eq_some hf
        have htypes : (f.signature c.enums).params = f.params.map fun p =>
            (c.enums.labelType (some p.label)).1.machine :=
          congrArg Signature.params (FuncDef.signature_eq _ _)
        rw [htypes] at hgives
        rw [Eval.expr_call hprint hlookup, ← hname]
        exact ((exprList_evaluates args f.params hlength (site.serves.discrete f hmem).params hargs).bind fun _ _ =>
          .call site.serves hmem).performs hgives hcovers h hK
    | _ => simp only [Expr.Discrete] at hdiscrete
  | .paren _ inner, hdiscrete => expr_evaluates inner hdiscrete
  | .select (.mk _ type scrutinee arms), hdiscrete => by
    obtain ⟨htype, hscrutinee, harms⟩ := hdiscrete
    refine ⟨expr_grows _ _, fun hgives hcovers h _ => ?_⟩
    have hvalued : ¬true → type = .void := by simp
    rw [Eval.expr, ← bind_assoc]
    refine (h.select hvalued hgives hcovers (expr_evaluates scrutinee hscrutinee)
      (armList_selects arms htype harms)).bind fun e w' m' he => ?_
    cases e with
    | value => exact .pure he
    | flow f => cases f <;> exact absurd rfl he.1

theorem exprList_evaluates {name : String} {locals : Locals} {K : Held} :
    ∀ (args : List (Expr Ty)) (params : List Param),
    params.length = args.length → (∀ p ∈ params, (c.enums.labelType (some p.label)).1.isInteger) →
    Expr.DiscreteList c args →
    site.Evaluates platform fuel locals K
      (Lower.arguments c.lower name (params.map fun p => (c.enums.labelType (some p.label)).1.machine) args)
      (Eval.exprList (c.eval fuel) locals args) fun vs xs => arguments c params xs vs
  | [], _, hlength, _, _ => by
    obtain rfl := length_eq_zero_iff.1 hlength
    exact .pure fun _ => .nil
  | arg :: args, params, hlength, htypes, hdiscrete => by
    obtain ⟨p, params, rfl⟩ := exists_cons_of_length_eq_add_one hlength
    exact (expr_evaluates arg hdiscrete.1).bind fun _ _ =>
      (Evaluates.convert (htypes p mem_cons_self) Held.has_last).prepare fun _ =>
        (exprList_evaluates args params (Nat.succ_inj.1 hlength)
          (fun p hp => htypes p (mem_cons_of_mem _ hp)) hdiscrete.2).bind fun _ _ => .pure fun h => .cons h.1.2.2 h.2

theorem armList_selects {type : Ty} {valued : Bool} {k : Nat} {locals : Locals} : ∀ arms : List (Arm Ty), 
    type.isInteger ∨ type = .void → Arm.DiscreteList c valued arms →
    site.Selects platform c fuel locals type valued k arms
  | [], _, _ => by
    refine ⟨fun hgives hcovers hframes h hv => ?_⟩
    exact hframes.undefined h
  | arm :: arms, htype, hdiscrete => by
    refine ⟨fun {n d d' w m x v} hgives hcovers hframes h hv => ?_⟩
    obtain ⟨hp, harmDiscrete, hrestDiscrete⟩ := hdiscrete
    obtain ⟨cond, d1, d2, d3, d4, d5, d6, htest, hpattern, hbr, harm, hbody, hleave, hrest⟩ :=
      gives_armList_cons hgives
    obtain ⟨hcovers1, hcovers2, hcovers3, hcovers4, hcovers5, hcovers6⟩ :=
      hcovers.of_arm hpattern hbr harm hbody hleave hrest
    have hbeyond1 := beyond_place htest
    have honward2 := (Grows.patternTest _ _ _).draft hpattern
    have hbeyond3 := (Steady.terminate _).beyond (.terminate _) hbr
    have hbeyond4 := beyond_place harm
    have hbeyond5 := (armBody_steady _ _ _).beyond (armBody_grows _ _ _) hbody
    have hbeyond6 := (Steady.terminateIfOpen _).beyond (.terminateIfOpen _) hleave
    have hle1 : d.registers ≤ d1.registers := hbeyond1.registers
    have hle3 : d.registers ≤ d3.registers := Nat.le_trans hle1 (Nat.le_trans honward2.registers hbeyond3.registers)
    -- Whatever the pattern names is gone after the arm.
    have hsame : d.scopes.push.SameOutside d6.scopes := by
      rw [hbeyond6.scopes_eq, hbeyond5.scopes_eq, hbeyond4.scopes_eq, hbeyond3.scopes_eq]
      have hscopes : d1.scopes = d.scopes.push := hbeyond1.scopes_eq
      rw [← hscopes]
      exact (Local.patternTest _ _ _).sameOutside (hscopes ▸ Scopes.push_inner_ne_nil _) hpattern
    have hpop {w' : World} {m' : Machine} (h' : site.Agrees (Eval.bindings x locals arm.pattern) w' d6 m') :
        site.Agrees locals w' { d6 with scopes := d6.scopes.pop } m' := by
      obtain ⟨inner, hinner⟩ := Eval.locals_suffix_bindings x locals arm.pattern
      rw [← hinner] at h'
      exact h'.pop hsame h.agrees.isOpen h.agrees.names.length_eq
    have h1 : site.State locals w d1 m :=
      Arrives.place (d := { d with scopes := d.scopes.push }) ⟨h.enters, h.agrees.push⟩ (.refl _) htest
    obtain ⟨b, hselects, hreaches⟩ :=
      h1.patternTest platform (hv.follow (.refl _ _) hle1) hp hpattern hcovers2
    refine .of_run_bind hselects (.of_reaches hreaches fun m2 h2 => ?_)
    have harmHas := has_of_place harm hcovers4 (by simp)
    have hnextHas := has_nextTest hrest hcovers hframes.fails
    obtain ⟨insts, term, hstep, henters⟩ := h2.state.condBr platform h2.holds hbr hcovers3 harmHas hnextHas
    refine .of_step hstep (Machine.Performs.of_le ?_ (Nat.sub_le fuel 1))
    have hfollows : m.Follows d.registers (m2.goto insts term) :=
      (Machine.Follows.refl _ m).trans (h2.follows.trans (m2.follows_goto d1.registers insts term) (Nat.le_refl _)) hle1
    have hagrees := (h2.state.agrees.goto insts term).beyond hbeyond3
    cases b with
    | true =>
      have h4 : site.State (Eval.bindings x locals arm.pattern) w d4 (m2.goto insts term) :=
        Arrives.place ⟨henters, hagrees⟩ (.refl _) harm
      have hperforms := (armBody_executes arm htype harmDiscrete hframes.slots).performs hbody hcovers5 h4
      refine hperforms.reaches fun e w' m' he => he.reaches hfollows fun hfalls => ?_
      obtain ⟨m'', hstep', harrives, hfollows', hmemory⟩ := hfalls.1.leave platform hleave hcovers6 hframes.ends
      refine .of_step hstep' (.refl ⟨⟨⟨harrives.enters, ?_⟩, ?_⟩, hmemory⟩)
      · exact (hpop harrives.agrees).beyond (beyond_armList hrest)
      · exact (hfollows.trans hfalls.2 (Nat.le_trans hle3 hbeyond4.registers)).trans hfollows'
          (Nat.le_trans hle3 (Nat.le_trans hbeyond4.registers hbeyond5.registers))
    | false =>
      have hagrees6 := hpop (hagrees.beyond (hbeyond4.trans (hbeyond5.trans hbeyond6)))
      have hle6 : d.registers ≤ d6.registers := Nat.le_trans hle3
        (Nat.le_trans hbeyond4.registers (Nat.le_trans hbeyond5.registers hbeyond6.registers))
      have hperforms := (armList_selects arms htype hrestDiscrete).performs hrest hcovers hframes
        ⟨henters, hagrees6⟩ (hv.follow hfollows hle6)
      refine hperforms.reaches fun e w' m' he => he.reaches hfollows fun hfalls => ?_
      exact .refl ⟨⟨hfalls.1, hfollows.trans hfalls.2 hle6⟩, rfl⟩

theorem armBody_executes {type : Ty} {valued : Bool} {n : Nat} {locals : Locals} :
    ∀ arm : Arm Ty, type.isInteger ∨ type = .void → arm.Discrete c valued → (slotFor n type).toList ⊆ site.draft.slots →
    site.Executes platform fuel locals (armBody c.lower (slotFor n type) arm)
    (Eval.armBody (c.eval fuel) locals arm) fun d d' m =>
        Outcome platform c.result type valued (slotFor n type) m fun w' m' =>
          site.State locals w' d' m' ∧ m.Follows d.registers m'
  | .block _ _ body, _, hdiscrete, _ => by
    refine ⟨fun hgives hcovers h => ?_⟩
    refine ((block_executes body hdiscrete.2).performs hgives hcovers h).bind fun flow w' m' hm' => .pure ?_
    cases flow with
    | next => exact ⟨hdiscrete.1, hm'.2⟩
    | ret => exact ⟨hdiscrete.1, hm'⟩
  | .value _ _ value, htype, hdiscrete, hslots => by
    refine ⟨fun hgives hcovers h => ?_⟩
    obtain ⟨v, d1, hvalue, hstore⟩ := gives_bind.1 hgives
    have honward1 := (expr_grows _ _).draft hvalue
    have hcovers1 := hcovers.of_grows ((Grows.storeResult _ _).draft hstore)
    refine ((expr_evaluates value hdiscrete).start hvalue hcovers1 h).bind fun x w' m1 h1 => ?_
    refine .of_reaches (h1.state.storeResult h1.holds htype hslots hstore hcovers) fun m' hm' => .pure ?_
    exact ⟨⟨hm'.2.1, h1.follows.trans hm'.1 honward1.registers⟩, hm'.2.2⟩

theorem block_executes {locals : Locals} : ∀ b : Block Ty, b.Discrete c →
    site.Executes platform fuel locals (block c.lower b) (Eval.block (c.eval fuel) locals b)
    (site.Ends platform c.result locals)
  | .mk _ stmts, hdiscrete => by
    refine ⟨fun {d d' w m} hgives hcovers h => ?_⟩
    obtain ⟨_, d1, hpush, hgives⟩ := gives_bind.1 hgives
    obtain rfl := gives_pushScope.1 hpush
    obtain ⟨_, d2, hstmts, hpop⟩ := gives_bind.1 hgives
    obtain rfl := gives_popScope.1 hpop
    have h1 : site.State locals w { d with scopes := d.scopes.push } m := ⟨h.here, h.agrees.push⟩
    have hcovers2 : site.Covers d2 := ⟨⟨hcovers.within.closed, hcovers.within.current⟩, hcovers.slots⟩
    have hsame := (stmtList_local _ stmts).sameOutside (Scopes.push_inner_ne_nil _) hstmts
    refine ((stmtList_executes stmts hdiscrete).performs hstmts hcovers2 h1).bind fun flow w' m' hm' => ?_
    cases flow with
    | next =>
      obtain ⟨⟨inner, rfl⟩, hstate, hfollows⟩ := hm'
      have hagrees := hstate.agrees.pop hsame h.agrees.isOpen h.agrees.names.length_eq
      exact .pure ⟨rfl, ⟨hstate.here, hagrees⟩, hfollows⟩
    | ret => exact .pure hm'

theorem stmtList_executes {locals : Locals} : ∀ stmts : List (Stmt Ty), Stmt.DiscreteList c stmts →
    site.Executes platform fuel locals (stmtList c.lower stmts) (Eval.stmtList (c.eval fuel) locals stmts)
      (site.Flows platform c.result locals)
  | [], _ => by
    refine ⟨fun hgives hcovers h => ?_⟩
    obtain ⟨-, rfl⟩ := gives_pure.1 hgives
    exact .pure ⟨suffix_rfl, h, .refl _ _⟩
  | stmt :: stmts, hdiscrete => by
    refine ⟨fun {d d' w m} hgives hcovers h => ?_⟩
    obtain ⟨_, d1, hstmt, hgives⟩ := gives_bind.1 hgives
    obtain ⟨isOpen, d2, hopen, hrest⟩ := gives_bind.1 hgives
    obtain ⟨rfl, rfl⟩ := gives_isOpen.1 hopen
    have honward1 := (statement_grows _ _).draft hstmt
    have honward2 : d2.Grows d' := by
      split at hrest
      · exact (stmtList_grows _ _).draft hrest
      · exact (Grows.pure _).draft hrest
    refine ((statement_executes stmt hdiscrete.1).performs hstmt (hcovers.of_grows honward2) h).bind
      fun flow w1 m1 h1 => ?_
    cases flow with
    | next =>
      obtain ⟨hsuffix, hstate, hfollows⟩ := h1
      have hisOpen : d2.current.isSome := by
        obtain ⟨b, block, hb, -⟩ := hstate.here
        rw [hb]
        rfl
      rw [if_pos hisOpen] at hrest
      refine ((stmtList_executes stmts hdiscrete.2).performs hrest hcovers hstate).mono fun flow w' m' hm' => ?_
      cases flow with
      | next => exact ⟨hsuffix.trans hm'.1, hm'.2.1, hfollows.trans hm'.2.2 honward1.registers⟩
      | ret => exact hm'.after hfollows
    | ret => exact .pure h1

theorem chain_executes {locals : Locals} : ∀ chain : IfChain Ty, chain.Discrete c →
    site.Executes platform fuel locals (Lower.chain c.lower chain) (Eval.chain (c.eval fuel) locals chain)
      (site.Ends platform c.result locals)
  | .only _ condition body, hdiscrete =>
    .only (expr_evaluates condition hdiscrete.1)
      (fun hgives => (block_steady _ body).beyond (block_grows _ body) hgives)
      (block_executes body hdiscrete.2)
  | .orElse _ condition body other, hdiscrete =>
    .fork (expr_evaluates condition hdiscrete.1)
      (fun hgives => (block_steady _ body).beyond (block_grows _ body) hgives)
      (block_executes body hdiscrete.2.1)
      (fun hgives => (block_steady _ other).beyond (block_grows _ other) hgives)
      (block_executes other hdiscrete.2.2)
  | .orIf _ condition body next, hdiscrete =>
    .fork (expr_evaluates condition hdiscrete.1)
      (fun hgives => (block_steady _ body).beyond (block_grows _ body) hgives)
      (block_executes body hdiscrete.2.1)
      (fun hgives => (chain_steady _ next).beyond (chain_grows _ next) hgives)
      (chain_executes next hdiscrete.2.2)

theorem statement_executes {locals : Locals} : ∀ stmt : Stmt Ty, stmt.Discrete c →
    site.Executes platform fuel locals (statement c.lower stmt) (Eval.statement (c.eval fuel) locals stmt)
      (site.Flows platform c.result locals)
  | .block body, hdiscrete => (block_executes body hdiscrete).flows
  | .decl _ _ _ _ _ init, hdiscrete => by
    obtain ⟨htype, hname, hinit⟩ := hdiscrete
    refine ⟨fun hgives hcovers h => ?_⟩
    rw [statement, hname] at hgives
    obtain ⟨v, d1, hvalue, hdeclare⟩ := gives_bind.1 hgives
    have honward1 := (initializer_grows _ _ _).draft hvalue
    have hcovers1 := hcovers.of_grows ((Grows.declareVariable _ _ _).draft hdeclare)
    refine ((initializer_evaluates init htype hinit).start hvalue hcovers1 h).bind
      fun x w1 m1 h1 => ?_
    obtain ⟨hxtype, hholds⟩ := h1.holds
    refine .of_reaches (h1.state.declareVariable hholds htype hxtype hdeclare hcovers) fun m' hm' => ?_
    refine .of_run_bind (u := { w1 with cells := w1.cells ++ [x] }) rfl (.pure ?_)
    exact ⟨suffix_cons _ _, hm'.2, h1.follows.trans hm'.1 honward1.registers⟩
  | .cond chained, hdiscrete => (chain_executes chained hdiscrete).flows
  | .loop _ condition body, hdiscrete =>
    (Executes.loop (expr_evaluates condition hdiscrete.1) (block_executes body hdiscrete.2)).flows
  | .select (.mk _ _ scrutinee arms), hdiscrete => by
    refine ⟨fun hgives hcovers h => ?_⟩
    obtain ⟨v, hselection, -⟩ := gives_map.1 hgives
    have hvalued : ¬false → Ty.void = .void := fun _ => rfl
    rw [Eval.statement, ← bind_assoc]
    refine (h.select hvalued hselection hcovers (expr_evaluates scrutinee hdiscrete.1)
      (armList_selects arms (.inr rfl) hdiscrete.2)).bind fun e w' m' he => ?_
    cases e with
    | value => exact .pure ⟨suffix_rfl, he.state, he.follows⟩
    | flow f =>
      cases f with
      | next => exact .pure ⟨suffix_rfl, he.2⟩
      | ret => exact .pure he.2
  | .ret _ none, hdiscrete => by
    refine ⟨fun hgives hcovers h => ?_⟩
    obtain ⟨hinsts, hterm⟩ := h.here.terminate hgives hcovers
    exact .pure ⟨rfl, h.agrees.output, hinsts, hdiscrete, hterm⟩
  | .ret _ (some value), hdiscrete => by
    refine ⟨fun hgives hcovers h => ?_⟩
    obtain ⟨v1, d1, hvalue, hgives⟩ := gives_bind.1 hgives
    obtain ⟨v2, d2, hconvert, hret⟩ := gives_bind.1 hgives
    have honward1 := (expr_grows _ _).draft hvalue
    have honward2 := (Grows.convert _ _).draft hconvert
    have hcovers2 := hcovers.of_grows ((Grows.terminate _).draft hret)
    refine ((expr_evaluates value hdiscrete.2).start hvalue (hcovers2.of_grows honward2) h).bind
      fun x w1 m1 h1 => ?_
    refine .of_reaches (h1.state.convert h1.holds hdiscrete.1 hconvert hcovers2) fun m2 h2 => .pure ?_
    obtain ⟨hinsts, hterm⟩ := h2.state.here.terminate hret hcovers
    have hfollows := h1.follows.trans h2.follows honward1.registers
    exact ⟨hfollows.callers, h2.state.agrees.output, hinsts, hdiscrete.1, Value.machine_ofInt hdiscrete.1, v2, hterm,
      Activation.Holds.read_eq platform h2.holds⟩
  | .expr _ value, hdiscrete => by
    refine ⟨fun hgives hcovers h => ?_⟩
    obtain ⟨v, hvalue, -⟩ := gives_map.1 hgives
    exact ((expr_evaluates value hdiscrete).start hvalue hcovers h).bind fun x w' m' hm' =>
      .pure ⟨suffix_rfl, hm'.state, hm'.follows⟩

theorem initializer_evaluates {type : Ty} {locals : Locals} {K : Held} : ∀ init : Option (Expr Ty), type.isInteger →
    Expr.DiscreteInit c init →
    site.Evaluates platform fuel locals K (initializer c.lower type.machine init)
      (Eval.initializer (c.eval fuel) locals type init) fun v x => .typed x type v
  | none, htype, _ =>
    .pure fun _ => ⟨Value.machine_ofInt htype, Constant.zero_eq htype⟩
  | some value, htype, hdiscrete =>
    (expr_evaluates value hdiscrete).bind fun _ _ => .convert htype Held.has_last

end

end Trees

end LocLang.Site
