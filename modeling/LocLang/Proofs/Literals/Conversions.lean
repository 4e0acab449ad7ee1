import LocLang.Proofs.Literals.Values
import LocLang.Proofs.Names
import LocLang.Proofs.Parser.Steps

namespace LocLang

open Lower

variable {μ : Type} {expected : Ty}

/-- The literal that an expression is, inside its parentheses. -/
def Expr.literal? : Expr μ → Option Literal
  | .literal _ value => some value
  | .paren _ inner => inner.literal?
  | _ => none

theorem Expr.Checked.fits {env : Walk.Env} {s : Scopes Symbol} {type : Ty} {l : Literal} :
    ∀ {e : Expr Ty}, e.literal? = some l → e.Checked env s expected type → l.Fits expected
  | .literal _ _, hliteral, h => by
    cases hliteral
    exact h.1
  | .paren _ inner, hliteral, h => fits (e := inner) hliteral h

/-- The type that a value of the given type is printed in. -/
def MachineTy.printed : MachineTy → MachineTy
  | .i64 => .i64
  | .float | .double => .double
  | .i1 | .i32 | .void => .i32

theorem Lower.expr_of_literal? {env : Env} {l : Literal} :
    ∀ {e : Expr Ty}, e.literal? = some l → expr env e = pure (.const (.ofLiteral l))
  | .literal _ _, h => by
    cases h
    rfl
  | .paren _ inner, h => expr_of_literal? (e := inner) h

/-- Where lowering converts the value of an expression, and to which type: the initial value of a variable, what is
    assigned, what is passed or printed, what is returned and what an arm gives. -/
inductive Lower.Converts (env : Env) : Task → Draft → Expr Ty → MachineTy → Prop where
  | initial {span nameSpan : Span} {modes : Modes} {name : String} {label : TypeLabel} {e : Expr Ty} {d : Draft} :
      Converts env (.statement (.decl span modes name nameSpan label (some e))) d e (Ty.ofName label.name).machine
  | assigned {span : Span} {place e : Expr Ty} {slot : Slot} {d : Draft} (htarget : (target place).Gives d slot d) :
      Converts env (.expr (.assign span place e)) d e slot.type
  | argument {name : String} {type : MachineTy} {types : List MachineTy} {e : Expr Ty} {args : List (Expr Ty)}
      {d : Draft} : Converts env (.arguments name (type :: types) (e :: args)) d e type
  | printed {e : Expr Ty} {args : List (Expr Ty)} {v : Operand} {d d' : Draft} (hvalue : (expr env e).Gives d v d') :
      Converts env (.printed (e :: args)) d e v.type.printed
  | returned {span : Span} {e : Expr Ty} {d : Draft} : Converts env (.statement (.ret span (some e))) d e env.result
  | arm {slot : Slot} {span : Span} {pattern : Pattern} {e : Expr Ty} {d : Draft} :
      Converts env (.armBody (some slot) (.value span pattern e)) d e slot.type

/-- Whether a name is bound to something of the types that the analysis knows, a variable of its own and a function of
    those of its parameters. -/
structure Origin.Typed (_ : Origin) (_ : String) (symbol : Symbol) (b : Binding) : Prop where
  slot : ∀ s, b = .slot s → symbol.type ≠ .unknown ∧ s.type = symbol.type.machine
  function : ∀ s, b = .function s → .unknown ∉ symbol.params ∧ s.params = symbol.params.map (·.machine)

theorem Lockstep.declares_typed {a : Analysis} {p : Program Unit} {index : Nat} {f : FuncDef Ty} (ha : a.Accepts p) :
    Lockstep.Declares a p strict index f Origin.Typed where
  function {i g} hg := by
    refine ⟨by simp, fun s hs => ?_⟩
    cases hs
    have hhead := (ha.checked g (List.mem_of_getElem? hg)).head
    refine ⟨fun hunknown => ?_, ?_⟩
    · obtain ⟨q, hq, hlabel⟩ := List.mem_map.1 hunknown
      exact hhead.known q hq hlabel
    · rw [FuncDef.signature_eq, Header.symbol, List.map_map]
      rfl
  parameter _ := ⟨by simp, by simp⟩
  declaration _ _ _ hwalk _ hclean := by
    obtain ⟨hknown, -⟩ := Walk.known_of_decl hwalk hclean
    refine ⟨fun s hs => ?_, by simp⟩
    cases hs
    exact ⟨hknown, congrArg Ty.machine (EnumTable.ofName_eq_labelType hknown)⟩
  binding _ _ _ _ := ⟨by simp, by simp⟩

/-- Whether values of arms are kept in the type that is wanted of them, as far as one is wanted. -/
def Slot.Suits (expected : Ty) (slot : Option Slot) : Prop :=
  ∀ s, slot = some s → expected = .unknown ∨ expected ≠ .void ∧ s.type = expected.machine

theorem Slot.suits_slotFor {type : Ty} (h : type = .void ∨ expected = .unknown ∨ type = expected) (n : Nat) :
    Suits expected (slotFor n type) := by
  intro s hs
  rw [slotFor] at hs
  split at hs
  · cases hs
  · rename_i hvalue
    cases hs
    obtain rfl | rfl | rfl := h
    · exact absurd (.inl rfl) hvalue
    · exact .inl rfl
    · exact .inr ⟨fun hvoid => hvalue (.inl hvoid), rfl⟩

namespace Lockstep

/-- Whether a part is lowered to the types that its walk wants. -/
def Agrees : Task → Walk.Task → Prop
  | .arguments _ types _, .arguments params _ => .unknown ∉ params ∧ types = params.map (·.machine)
  | .selection type _, .selection expected _ => type = .void ∨ expected = .unknown ∨ type = expected
  | .armList _ _ slot _ _, .armList expected _ _ _ _ => Slot.Suits expected slot
  | .armBody slot _, .armBody expected _ _ => Slot.Suits expected slot
  | _, _ => True

variable {a : Analysis} {p : Program Unit} {strict : Bool} {index : Nat} {f : FuncDef Ty} {place : TreePath}
  {t : Task} {d : Draft}
  {u : Walk.Task} {s : Walk.State}

/-- A match has the type that is wanted of it, if one is wanted. -/
theorem note_of_selection {env : Walk.Env} {scopes : Scopes Symbol} {type : Ty} {m : Match Ty}
    (h : m.Checked env scopes expected type) : expected = .unknown ∨ m.note = expected := by
  cases m with
  | mk =>
    obtain ⟨_, _, -, -, htype, hnote⟩ := h
    rw [Match.note, hnote, htype]
    by_cases hexpected : expected = .unknown
    · exact .inl hexpected
    · exact .inr (if_neg hexpected)

/-- The arguments of a call are lowered to the types of the parameters. -/
theorem agrees_arguments {span : Span} {callee : Expr Ty} {args : List (Expr Ty)} {name : String}
    {types : List MachineTy} {args' : List (Expr Ty)} {d' : Draft} {u' : Walk.Task} {s' : Walk.State} {x : Lower Task}
    {y : Walk Walk.Task} (h : Lockstep a p strict index f place (.expr (.call span callee args)) d u s)
    (ha : a.Accepts p) (lowered : ((Task.expr (.call span callee args)).calls (f.lowerEnv a.enums))[0]? = some x)
    (lowers : x.Gives d (.arguments name types args') d') (walked : (u.calls (f.walkEnv a.enums))[0]? = some y)
    (walks : y.Gives s u' s') : Agrees (.arguments name types args') u' := by
  have herase := h.erase
  obtain ⟨sight, -, haligned⟩ := h.aligned ha (declares_typed ha)
  cases u <;> cases herase
  cases callee with
  | ident _ function =>
    simp only [Task.calls] at lowered
    split at lowered
    · cases lowered
      cases (gives_pure.1 lowers).1
    · cases lowered
      obtain ⟨signature, d1, hcallee, hpure⟩ := gives_bind.1 lowers
      obtain ⟨hb, rfl⟩ := gives_callee.1 hcallee
      cases (gives_pure.1 hpure).1
      cases walked
      obtain ⟨symbol, s1, hlookup, hrest⟩ := Walk.gives_bind.1 walks
      obtain ⟨hsymbol, rfl⟩ := Walk.finds_of_lookup hlookup
      obtain ⟨_, symbol', -, hsymbol', htyped⟩ := haligned.resolve hb
      obtain rfl := hsymbol.unique hsymbol'
      have htask : u' = .arguments symbol.params (Expr.mapList (fun _ => ()) args) := by
        split at hrest
        · split at hrest
          · obtain ⟨_, _, -, hpure⟩ := Walk.gives_bind.1 hrest
            exact (Walk.gives_pure.1 hpure).1
          · exact (Walk.gives_pure.1 hrest).1
        · exact absurd hrest Walk.gives_giveUp
      subst htask
      exact htyped.function signature rfl
  | _ => cases lowered

theorem agrees (h : Lockstep a p strict index f place t d u s) (ha : a.Accepts p) : Agrees t u := by
  induction h with
  | body => trivial
  | @call _ t t' _ _ u _ _ _ _ _ _ _ parent lowered lowers walked walks run clean ih =>
    have herase := parent.erase
    have hchild := Task.children_of_call lowered lowers
    cases t' with
    | arguments =>
      obtain ⟨rfl, span, callee, hnode⟩ | ⟨rfl, first, hnode⟩ := Node.of_children_eq_exprs hchild
      · cases t <;> cases hnode
        exact parent.agrees_arguments ha lowered lowers walked walks
      · cases t with
        | arguments =>
          cases hnode
          cases u <;> cases herase
          obtain ⟨hknown, rfl⟩ := ih
          rename_i params
          cases params with
          | nil => cases lowered
          | cons =>
            cases lowered
            obtain ⟨_, _, -, lowers⟩ := gives_bind.1 lowers
            obtain ⟨_, _, -, lowers⟩ := gives_bind.1 lowers
            cases (gives_pure.1 lowers).1
            cases walked
            obtain ⟨_, _, -, walks⟩ := Walk.gives_bind.1 walks
            cases (Walk.gives_pure.1 walks).1
            exact ⟨fun hunknown => hknown (List.mem_cons_of_mem _ hunknown), rfl⟩
        | printed =>
          cases hnode
          cases lowered
        | _ => cases hnode
    | selection type =>
      obtain ⟨rfl, hnode | hnode⟩ := Node.of_children_eq_select hchild
      · cases t <;> cases hnode
        cases u <;> cases herase
        cases lowered
        cases (gives_pure.1 lowers).1
        cases walked
        cases (Walk.gives_pure.1 walks).1
        obtain ⟨⟨type, m'⟩, hwalk, hnode⟩ := Walk.gives_map.1 run
        cases hnode
        exact .inr (note_of_selection ((Walk.selection_accepts _ _ _).of_gives hwalk clean).fact.2.1)
      · cases t <;> cases hnode
        cases u <;> cases herase
        cases lowered
        cases (gives_pure.1 lowers).1
        cases walked
        cases (Walk.gives_pure.1 walks).1
        exact .inl rfl
    | armList n =>
      obtain ⟨rfl, ⟨span, note, scrutinee, hnode⟩ | ⟨first, hnode⟩⟩ := Node.of_children_eq_arms hchild
      · cases t <;> cases hnode
        cases u <;> cases herase
        cases lowered
        obtain ⟨_, _, -, lowers⟩ := gives_bind.1 lowers
        obtain ⟨_, _, -, lowers⟩ := gives_bind.1 lowers
        obtain ⟨_, _, hslot, lowers⟩ := gives_bind.1 lowers
        obtain ⟨_, _, -, lowers⟩ := gives_bind.1 lowers
        cases (gives_pure.1 lowers).1
        cases walked
        obtain ⟨_, _, -, walks⟩ := Walk.gives_bind.1 walks
        cases (Walk.gives_pure.1 walks).1
        obtain ⟨rfl, -⟩ := gives_resultSlot hslot
        exact Slot.suits_slotFor ih n
      · cases t <;> cases hnode
        cases u <;> cases herase
        cases Task.eq_of_arms_call lowered lowers
        obtain ⟨joined, htask⟩ := Walk.Task.eq_of_arms_call walked walks
        subst htask
        exact ih
    | armBody =>
      obtain ⟨rfl, others, hnode⟩ := Node.of_children_eq_arm hchild
      cases t <;> cases hnode
      cases u <;> cases herase
      cases Task.eq_of_arm_call lowered lowers
      cases Walk.Task.eq_of_arm_call walked walks
      exact ih
    | expr | printed | block | stmtList | chain | statement | initializer => trivial

end Lockstep

/-- An integer that is checked against a type of 32 bits has enough room there. -/
theorem Expr.Checked.fitsInt32 {env : Walk.Env} {s : Scopes Symbol} {type : Ty} {e : Expr Ty} {n : Int}
    (h : e.Checked env s expected type) (hliteral : e.literal? = some (.int n)) (hknown : expected ≠ .unknown)
    (hmachine : expected.machine = .i32) : Literal.fitsInt32 n := by
  have hint32 : expected = .int32 := by
    cases expected <;> first | rfl | exact absurd rfl hknown | cases hmachine
  exact h.fits hliteral hint32

namespace Lower.Converts

variable {p : Program Unit} {strict : Bool} {index : Nat} {env : Env} {place : TreePath} {t : Task} {d : Draft}
  {e : Expr Ty} {type : MachineTy} {n : Int}

/-- An integer that is converted to 32 bits has enough room there, unless it is the value of an arm of a match of which
    no type is wanted. -/
theorem fitsInt32 (h : Converts env t d e type) (herrors : (p.analyze strict).hasErrors = false)
    (hvisit : Visits (p.analyze strict) index env place t d) (hliteral : e.literal? = some (.int n))
    (htype : type = .i32) (harm : ∀ up sofar arm s,
    ¬Walk.Visits p strict index up place (.armBody .unknown sofar arm) s) : Literal.fitsInt32 n := by
  have ha := Program.accepts_of_hasErrors herrors
  obtain ⟨f, u, s, hf, rfl, hstep⟩ := hvisit.lockstep herrors
  have hagrees := hstep.agrees ha
  obtain ⟨s', hrun, hclean⟩ := hstep.run
  have herase := hstep.erase
  cases h with
  | @initial _ _ _ _ _ =>
    cases u <;> cases herase
    obtain ⟨stmt, hwalk, hnode⟩ := Walk.gives_map.1 hrun
    cases hnode
    obtain ⟨hknown, -, _, hchecked⟩ := ((Walk.statement_accepts _ _).of_gives hwalk hclean).fact.2.1
    rw [EnumTable.ofName_eq_labelType hknown] at htype
    exact hchecked.fitsInt32 hliteral hknown htype
  | @assigned _ target _ slot _ htarget =>
    obtain ⟨sight, -, haligned⟩ := hstep.aligned ha (Lockstep.declares_typed ha)
    cases u <;> cases herase
    obtain ⟨⟨_, e'⟩, hwalk, hnode⟩ := Walk.gives_map.1 hrun
    cases hnode
    have hchecked := ((Walk.expr_accepts _ _ _).of_gives hwalk hclean).fact.2.1
    cases target with
    | ident =>
      obtain ⟨symbol, _, hsymbol, -, hchecked, -⟩ := hchecked
      obtain ⟨b, _, hlookup, hslot⟩ := gives_bind.1 htarget
      obtain ⟨hb, rfl⟩ := gives_lookup.1 hlookup
      obtain ⟨_, symbol', -, hsymbol', htyped⟩ := haligned.resolve hb
      obtain rfl := hsymbol.unique hsymbol'
      cases b with
      | slot =>
        obtain ⟨rfl, -⟩ := gives_pure.1 hslot
        obtain ⟨hknown, hmachine⟩ := htyped.slot slot rfl
        exact hchecked.fitsInt32 hliteral hknown (hmachine.symm.trans htype)
      | value v | function signature => exact absurd hslot gives_fault
    | _ => exact hchecked.elim
  | argument =>
    cases u <;> cases herase
    rename_i params
    obtain ⟨args, hwalk, hnode⟩ := Walk.gives_map.1 hrun
    cases hnode
    obtain ⟨⟨_, hchecked⟩, -⟩ := ((Walk.arguments_accepts _ _ _).of_gives hwalk hclean).fact.2.1
    obtain ⟨hknown, htypes⟩ := hagrees
    cases params with
    | nil => cases htypes
    | cons =>
      cases htypes
      exact hchecked.fitsInt32 hliteral (fun hunknown => hknown (hunknown ▸ List.mem_cons_self)) htype
  | printed hvalue =>
    rw [expr_of_literal? hliteral] at hvalue
    obtain ⟨rfl, -⟩ := gives_pure.1 hvalue
    cases hfits : Literal.fitsInt32 n with
    | true => rfl
    | false =>
      rw [Constant.ofLiteral, hfits] at htype
      cases htype
  | returned =>
    cases u <;> cases herase
    obtain ⟨stmt, hwalk, hnode⟩ := Walk.gives_map.1 hrun
    cases hnode
    obtain ⟨-, _, hchecked⟩ := ((Walk.statement_accepts _ _).of_gives hwalk hclean).fact.2.1
    exact hchecked.fitsInt32 hliteral (ha.checked f (List.mem_of_getElem? hf)).head.result htype
  | arm =>
    cases u <;> cases herase
    obtain ⟨⟨_, arm⟩, hwalk, hnode⟩ := Walk.gives_map.1 hrun
    cases hnode
    obtain ⟨_, hchecked, -⟩ := ((Walk.armBody_accepts _ _ _ _).of_gives hwalk hclean).fact.2.1
    obtain rfl | ⟨hvoid, hmachine⟩ := hagrees _ rfl
    · exact absurd hstep.walked (harm _ _ _ _)
    · rw [if_neg hvoid] at hchecked
      refine hchecked.fitsInt32 hliteral ?_ (hmachine.symm.trans htype)
      rintro rfl
      exact harm _ _ _ _ hstep.walked

end Lower.Converts

namespace Program

/-- When a literal keeps its value. Take a number that is lowered in a program without errors, maybe in parentheses,
    where its value is converted to an integer type. It becomes a constant, which stands for the same number if and only
    if that type has the number. An integer is known to have enough room, unless it is the value of an arm of a match of
    which no type is wanted. -/
theorem literal_keeps_value_iff (p : Program Unit) (strict : Bool) (herrors : (p.analyze strict).hasErrors = false)
    {index : Nat} {env : Env} {place : TreePath} {t : Task} {d : Draft}
    (hvisit : Visits (p.analyze strict) index env place t d) {e : Expr Ty} {type : MachineTy}
    (hconverts : Converts env t d e type) {l : Literal} (hliteral : e.literal? = some l)
    (hnumber : ∀ b, l ≠ .bool b) (htype : type = .i32 ∨ type = .i64) :
    ∃ c, (do
        let v ← expr env e
        convert v type).Gives d (.const c) d ∧
      (c.value? = l.value? ↔ l.KeptIn type) ∧
      ∀ n, l = .int n → (∀ up sofar arm s, ¬Walk.Visits p strict index up place (.armBody .unknown sofar arm) s) →
        c.value? = l.value? := by
  have hvoid : type ≠ .void := by
    rintro rfl
    simp at htype
  have hkept := Constant.value?_inType_iff htype hnumber
  refine ⟨(Constant.ofLiteral l).inType type, ?_, hkept, fun n hn harm => hkept.2 ?_⟩
  · rw [expr_of_literal? hliteral, pure_bind, convert_const hvoid]
    exact gives_pure.2 ⟨rfl, rfl⟩
  · subst hn
    exact fun hi32 => hconverts.fitsInt32 herrors hvisit hliteral hi32 harm

/-- Prints the value of a match with an arm that does not fit into 32 bits. -/
def wideArm : Source :=
  .ofText "fn main() { print(match true { true => 5000000000, _ => 1 }); }"

def isWideArm : Task → Bool
  | .armBody (some slot) (.value _ _ (.literal _ (.int 5000000000))) => slot.type = .i32
  | _ => false

theorem literal_keeps_value_iff_wideArm : ∃ p, wideArm.parse = .ok p ∧ (p.analyze true).hasErrors = false ∧
      ∃ env place t d e, Visits (p.analyze true) 0 env place t d ∧ Converts env t d e .i32 ∧
        e.literal? = some (.int 5000000000) ∧ ∃ c, (do
          let v ← expr env e
          convert v .i32).Gives d (.const c) d ∧ c.value? ≠ some 5000000000 := by
  obtain ⟨p, hparse, herrors, hvisit⟩ : ∃ p, wideArm.parse = .ok p ∧ (p.analyze true).hasErrors = false ∧
      (visit? (p.analyze true) 0 [0, 1, 0, 0, 0, 0, 0, 0]).any (isWideArm ·.2.1) :=
    exists_eq_ok_of_any (by decide +kernel)
  obtain ⟨⟨env, t, d⟩, hvisit, harm⟩ := (Option.any_eq_true _ _).1 hvisit
  dsimp only [isWideArm] at harm
  split at harm
  · rename_i slot span pattern literalSpan
    have hslot : slot.type = .i32 := of_decide_eq_true harm
    have hconverts : Converts env (.armBody (some slot) (.value span pattern (.literal literalSpan (.int 5000000000))))
        d (.literal literalSpan (.int 5000000000)) .i32 := hslot ▸ .arm
    have hvisits := visit?_eq_some.1 hvisit
    obtain ⟨c, hgives, hkept, -⟩ := literal_keeps_value_iff p true herrors hvisits hconverts rfl (by simp) (.inl rfl)
    refine ⟨p, hparse, herrors, env, _, _, d, _, hvisits, hconverts, rfl, c, hgives, fun hvalue => ?_⟩
    have hfits : Literal.fitsInt32 5000000000 := hkept.1 hvalue rfl
    cases hfits
  · cases harm

/-- Declares an integer with a fraction as its initial value. -/
def oneAndHalf : Source :=
  .ofText "fn main() { let x: i32 = 1.5; }"

def isOneAndHalf : Task → Bool
  | .statement (.decl _ _ _ _ label (some (.literal _ (.float x)))) =>
    (Ty.ofName label.name).machine = .i32 && x.value? = some (3 / 2) && x.toInt64 = 1
  | _ => false

theorem literal_changes_value_oneAndHalf : ∃ p, oneAndHalf.parse = .ok p ∧ (p.analyze true).hasErrors = false ∧
      ∃ env place t d e x, Visits (p.analyze true) 0 env place t d ∧ Converts env t d e .i32 ∧
        e.literal? = some (.float x) ∧ x.value? = some (3 / 2) ∧ ∃ c, (do
          let v ← expr env e
          convert v .i32).Gives d (.const c) d ∧ c.value? = some 1 := by
  obtain ⟨p, hparse, herrors, hvisit⟩ : ∃ p, oneAndHalf.parse = .ok p ∧ (p.analyze true).hasErrors = false ∧
      (visit? (p.analyze true) 0 [0, 0]).any (isOneAndHalf ·.2.1) :=
    exists_eq_ok_of_any (by decide +kernel)
  obtain ⟨⟨env, t, d⟩, hvisit, hdecl⟩ := (Option.any_eq_true _ _).1 hvisit
  dsimp only [isOneAndHalf] at hdecl
  split at hdecl
  · rename_i span modes name nameSpan label literalSpan x
    simp only [Bool.and_eq_true, decide_eq_true_eq] at hdecl
    obtain ⟨⟨hlabel, hvalue⟩, hwhole⟩ := hdecl
    have hconverts : Converts env
        (.statement (.decl span modes name nameSpan label (some (.literal literalSpan (.float x))))) d
        (.literal literalSpan (.float x)) .i32 := hlabel ▸ .initial
    refine ⟨p, hparse, herrors, env, _, _, d, _, x, visit?_eq_some.1 hvisit, hconverts, rfl, hvalue,
      .int .i32 (Number.wrapInt32 x.toInt64), ?_, ?_⟩
    · exact gives_bind.2 ⟨_, d, gives_pure.2 ⟨rfl, rfl⟩, gives_pure.2 ⟨rfl, rfl⟩⟩
    · rw [hwhole]
      rfl
  · cases hdecl

end Program

end LocLang
