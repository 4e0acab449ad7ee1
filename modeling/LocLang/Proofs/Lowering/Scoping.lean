import LocLang.Proofs.Lowering.Course

namespace LocLang.Lower

variable {α β : Type} {marks : List Mark} {x : Lower α} {f : α → Lower β}

structure Steady (x : Lower α) : Prop where
  scopes_eq : ∀ {d : Draft} {a : α} {d' : Draft}, x.Gives d a d' → d'.scopes = d.scopes

/-- Whether work inside a function changes the innermost scope only. -/
structure Local (x : Lower α) : Prop where
  sameOutside : ∀ {d : Draft} {a : α} {d' : Draft}, d.scopes.inner ≠ [] → x.Gives d a d' →
    d.scopes.SameOutside d'.scopes

theorem Built.steady (h : Built (.of .free) false marks x) : Steady x := by
  constructor
  intro d a d' hx
  obtain ⟨edits, -, hcourse⟩ := h.course hx fun _ _ _ => trivial
  exact hcourse.scopes.1 rfl

theorem Built.isLocal (h : Built (.of .free) true marks x) : Local x := by
  constructor
  intro d a d' hopen hx
  obtain ⟨edits, -, hcourse⟩ := h.course hx fun _ _ _ => trivial
  exact hcourse.scopes.2 hopen

theorem Local.bind {x : Lower α} (hx : Local x) (hf : ∀ a, Local (f a)) : Local (x >>= f) := by
  constructor
  intro d b d' hopen h
  obtain ⟨a, d1, hfirst, hrest⟩ := gives_bind.1 h
  have hsame := hx.sameOutside hopen hfirst
  exact hsame.trans ((hf a).sameOutside hsame.open_right hrest)

namespace Steady

theorem bind {x : Lower α} (hx : Steady x) (hf : ∀ a, Steady (f a)) : Steady (x >>= f) := by
  constructor
  intro d b d' h
  obtain ⟨a, d1, hfirst, hrest⟩ := gives_bind.1 h
  exact ((hf a).scopes_eq hrest).trans (hx.scopes_eq hfirst)

theorem isLocal {x : Lower α} (hx : Steady x) : Local x := by
  constructor
  intro d a d' hopen h
  rw [hx.scopes_eq h]
  exact .refl hopen

protected theorem pure (a : α) : Steady (pure a : Lower α) :=
  (Built.pure a).steady

theorem nextLabel : Steady nextLabel := by
  constructor
  intro d n d' h
  obtain ⟨-, rfl⟩ := gives_nextLabel.1 h
  rfl

theorem newSlot (name : Nat → SlotName) (type : MachineTy) : Steady (newSlot name type) := by
  constructor
  intro d slot d' h
  obtain ⟨-, rfl⟩ := gives_newSlot.1 h
  rfl

theorem emit (i : Inst) : Steady (emit i) := by
  constructor
  intro d u d' h
  obtain ⟨b, -, rfl⟩ := gives_emit.1 h
  rfl

theorem terminate (t : Terminator) : Steady (terminate t) := by
  constructor
  intro d u d' h
  obtain ⟨b, -, rfl⟩ := gives_terminate.1 h
  rfl

theorem terminateIfOpen (t : Terminator) : Steady (terminateIfOpen t) := by
  constructor
  intro d u d' h
  rcases gives_terminateIfOpen.1 h with h | ⟨-, rfl⟩
  · exact (terminate t).scopes_eq h
  · rfl

theorem place (label : Label) : Steady (place label) := by
  constructor
  intro d u d' h
  obtain ⟨-, rfl⟩ := gives_place.1 h
  rfl

theorem convert (v : Operand) (type : MachineTy) : Steady (convert v type) :=
  (Built.convert v type).steady

/-- What happens in a scope of its own is forgotten at its end. -/
theorem inScope {x : Lower α} {f : Lower β} (hx : Local x) (hf : Steady f) :
    Steady (do
      pushScope
      let _ ← x
      popScope
      f) := by
  constructor
  intro d b d' h
  obtain ⟨_, d1, hpush, h⟩ := gives_bind.1 h
  obtain rfl := gives_pushScope.1 hpush
  obtain ⟨_, d2, hwork, h⟩ := gives_bind.1 h
  obtain ⟨_, d3, hpop, hrest⟩ := gives_bind.1 h
  obtain rfl := gives_popScope.1 hpop
  rw [hf.scopes_eq hrest]
  exact (hx.sameOutside (Scopes.push_inner_ne_nil _) hwork).pop_eq_of_push

end Steady

theorem Local.patternTest (enums : EnumTable) (v : Operand) (p : Pattern) : Local (patternTest enums v p) :=
  (Built.patternTest enums v fun _ _ _ => rfl).isLocal

section Tree

variable (env : Env)

theorem expr_steady (e : Expr Ty) : Steady (expr env e) :=
  (expr_built env e e.obeys_free).steady

theorem selection_steady (m : Match Ty) (type : Ty) : Steady (selection env type m) :=
  (selection_built env m type m.scrutinee.obeys_free (Arm.obeyAll_free m.arms) fun _ => id).steady

theorem armList_steady (n : Nat) (v : Operand) (slot : Option Slot) (k : Nat) (arms : List (Arm Ty)) :
    Steady (armList env n v slot k arms) :=
  (armList_built env n v false (fun _ v => .storeAny (fun _ => trivial) v slot) k arms
    (Arm.obeyAll_free arms)).steady

theorem armBody_steady (slot : Option Slot) (arm : Arm Ty) : Steady (armBody env slot arm) :=
  (armBody_built env 0 false (fun _ v => .storeAny (fun _ => trivial) v slot) arm arm.obeys_free).steady

theorem block_steady (b : Block Ty) : Steady (block env b) :=
  (block_built env b b.obeys_free).steady

theorem stmtList_local (stmts : List (Stmt Ty)) : Local (stmtList env stmts) :=
  (stmtList_built env stmts (Stmt.obeyAll_free stmts)).isLocal

theorem chain_steady (c : IfChain Ty) : Steady (chain env c) :=
  (chain_built env c c.obeys_free).steady

theorem initializer_steady (type : MachineTy) (init : Option (Expr Ty)) : Steady (initializer env type init) :=
  (initializer_built env type init (Expr.obeyIfAny_free init)).steady

theorem statement_steady {stmt : Stmt Ty} (h : ∀ span modes name nameSpan label init,
    stmt ≠ .decl span modes name nameSpan label init) : Steady (statement env stmt) :=
  (statement_built env stmt stmt.obeys_free fun ⟨_, _, _, _, _, _, hdecl⟩ => absurd hdecl (h _ _ _ _ _ _)).steady

end Tree

end LocLang.Lower
