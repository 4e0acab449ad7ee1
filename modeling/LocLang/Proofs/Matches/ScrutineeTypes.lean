import LocLang.Proofs.Matches.Lowered
import LocLang.Proofs.Names
import LocLang.Proofs.Parser.Steps

namespace LocLang

open Lower

namespace Ty

/-- The type in code of a value that has this type in the analysis. What has no value is zero. -/
def held (t : Ty) : MachineTy :=
  if t = .void then .i32 else t.machine

/-- The type in code of a value that has this type in the analysis, and may be widened. -/
def inCode (t : Ty) (widened : Bool) : MachineTy :=
  match t, widened with
  | .bool, true => .i32
  | .int32, true => .i64
  | t, _ => t.held

@[simp]
theorem inCode_false (t : Ty) : t.inCode false = t.held := by
  cases t <;> rfl

theorem held_ne_void (t : Ty) : t.held ≠ .void := by
  cases t <;> decide

theorem held_eq_machine {t : Ty} (h : t ≠ .void) : t.held = t.machine := by
  rw [held, if_neg h]

/-- Whether the value of arithmetic is wider in code, by the types of the operands and whether they are. -/
def arithmeticWidens (lhs : Ty) (lhsWidened : Bool) (rhs : Ty) (rhsWidened : Bool) : Bool :=
  match lhs.wider rhs with
  | .bool => true
  | .int32 => lhs = .int32 && lhsWidened || rhs = .int32 && rhsWidened
  | _ => false

/-- What arithmetic is done in, in code. -/
theorem wider_inCode (a b : Ty) (v w : Bool) :
    (if (a.inCode v).wider (b.inCode w) = .i1 then .i32 else (a.inCode v).wider (b.inCode w)) =
      (a.wider b).inCode (a.arithmeticWidens v b w) := by
  cases a <;> cases b <;> cases v <;> cases w <;> rfl

end Ty

namespace Expr

/-- The type of an expression in the analysis, where nothing is wanted of it. -/
def typeIn (s : Scopes Symbol) : Expr Ty → Ty
  | .literal _ value => value.typeFor .unknown
  | .ident _ name | .assign _ (.ident _ name) _ | .call _ (.ident _ name) _ =>
    (s.resolve? name).elim .unknown (·.value.type)
  | .assign _ _ _ | .call _ _ _ => .unknown
  | .variant _ _ _ => .int32
  | .binary _ op lhs rhs => if op.isComparison then .bool else (lhs.typeIn s).wider (rhs.typeIn s)
  | .paren _ inner => inner.typeIn s
  | .select m => m.note

/-- Whether an expression is wider in code than in the analysis: an integer literal that does not fit into 32 bits, or
    arithmetic on truth values or on such literals, unless an operand of another kind decides. -/
def widens (s : Scopes Symbol) : Expr Ty → Bool
  | .literal _ (.int value) => !Literal.fitsInt32 value
  | .binary _ op lhs rhs =>
    !op.isComparison && (lhs.typeIn s).arithmeticWidens (lhs.widens s) (rhs.typeIn s) (rhs.widens s)
  | .paren _ inner => inner.widens s
  | .literal _ (.float _) | .literal _ (.bool _) | .ident _ _ | .variant _ _ _ | .assign _ _ _ | .call _ _ _
  | .select _ => false

theorem elim_of_finds {s : Scopes Symbol} {name : String} {symbol : Symbol} (h : s.Finds name symbol) :
    (s.resolve? name).elim .unknown (·.value.type) = symbol.type := by
  obtain ⟨entry, hentry, rfl⟩ := h
  rw [hentry, Option.elim_some]

theorem Checked.type_eq {env : Walk.Env} {s : Scopes Symbol} :
    ∀ {e : Expr Ty} {type : Ty}, e.Checked env s .unknown type → type = e.typeIn s
  | .literal _ _, _, h => h.2
  | .ident _ _, _, h => by
    obtain ⟨symbol, hfinds, -, rfl⟩ := h
    exact (elim_of_finds hfinds).symm
  | .variant _ _ _, _, h => h.2
  | .binary _ _ _ _, _, h => by
    obtain ⟨lhsType, rhsType, hlhs, hrhs, rfl⟩ := h
    rw [typeIn, hlhs.type_eq, hrhs.type_eq]
  | .assign _ target _, _, h => by
    cases target with
    | ident =>
      obtain ⟨symbol, -, hfinds, -, -, rfl⟩ := h
      exact (elim_of_finds hfinds).symm
    | _ => exact h.elim
  | .call _ callee _, _, h => by
    cases callee with
    | ident =>
      obtain ⟨symbol, hfinds, -, -, -, rfl⟩ := h
      exact (elim_of_finds hfinds).symm
    | _ => exact h.elim
  | .paren _ inner, _, h => Checked.type_eq (e := inner) h
  | .select (.mk _ _ _ _), _, h => by
    obtain ⟨-, -, -, -, -, rfl⟩ := h
    rfl

/-- Only truth values and 32-bit integers are widened. -/
theorem inCode_ne_held {s : Scopes Symbol} : ∀ {e : Expr Ty}, e.widens s = true →
    (e.typeIn s).inCode true ≠ (e.typeIn s).held
  | .literal _ (.int _), _ => by
    rw [typeIn, Literal.typeFor]
    decide
  | .binary _ _ lhs rhs, h => by
    rw [widens, Bool.and_eq_true, Bool.not_eq_true'] at h
    obtain ⟨hop, hwidens⟩ := h
    rw [typeIn, hop, if_neg Bool.false_ne_true]
    rw [Ty.arithmeticWidens] at hwidens
    cases hwider : (lhs.typeIn s).wider (rhs.typeIn s) with
    | bool | int32 => decide
    | unknown | int64 | float32 | float64 | void =>
      rw [hwider] at hwidens
      cases hwidens
  | .paren _ inner, h => inCode_ne_held (e := inner) h

end Expr

/-- The type of the value that a name gives: of what it is bound to, or of what a call of it gives. -/
def Binding.given : Binding → MachineTy
  | slot s => s.type
  | value v => v.type
  | function s => if s.result = .void then .i32 else s.result

/-- Whether the value that a name gives has a type in code that goes with what the analysis knows of the name. No
    variable is without a value, and no function has the name of the one that prints. -/
structure Origin.Bears (Q : Symbol → MachineTy → Prop) (_ : Origin) (name : String) (symbol : Symbol) (b : Binding) :
    Prop where
  given : Q symbol b.given
  slot_ne_void : ∀ s, b = .slot s → s.type ≠ .void
  ne_print : symbol.kind = .function → name ≠ printName

namespace Lower

variable {d d' : Draft} {v : Operand}

theorem type_of_convert {w : Operand} {type : MachineTy} (h : (convert w type).Gives d v d') (htype : type ≠ .void) :
    v.type = type := by
  rw [convert.eq_def] at h
  split at h
  · rename_i hsame
    obtain ⟨rfl, -⟩ := gives_pure.1 h
    exact hsame.resolve_right htype
  · cases w with
    | const c =>
      obtain ⟨rfl, -⟩ := gives_pure.1 h
      cases c <;> cases type <;> first | exact absurd rfl htype | rfl
    | param name type' | reg index type' =>
      obtain ⟨-, -, rfl, -⟩ := gives_emitValue.1 h
      rfl

theorem type_of_call {s : Signature} {args : List Operand} (h : (call s args).Gives d v d') :
    v.type = (Binding.function s).given := by
  rw [call] at h
  rw [Binding.given]
  split at h
  · obtain ⟨_, _, -, h⟩ := gives_bind.1 h
    obtain ⟨rfl, -⟩ := gives_pure.1 h
    rw [if_pos ‹_›]
    rfl
  · obtain ⟨-, -, rfl, -⟩ := gives_emitValue.1 h
    rw [if_neg ‹_›]
    rfl

theorem type_of_binary {op : BinaryOp} {lhs rhs : Operand} (h : (binary op lhs rhs).Gives d v d') :
    v.type = op.resultType (op.operandType lhs.type rhs.type) := by
  obtain ⟨_, _, -, h⟩ := gives_bind.1 h
  obtain ⟨_, _, -, h⟩ := gives_bind.1 h
  obtain ⟨-, -, rfl, -⟩ := gives_emitValue.1 h
  rfl

theorem type_of_selection {env : Env} {type : Ty} {m : Match Ty} (h : (selection env type m).Gives d v d') :
    v.type = type.held := by
  obtain ⟨span, note, scrutinee, arms⟩ := m
  obtain ⟨_, slot, _, _, _, _, _, _, _, -, hslot, -, -, -, -, -, hload⟩ := gives_selection h
  obtain ⟨rfl, -⟩ := gives_resultSlot hslot
  cases type with
  | void | unknown =>
    obtain ⟨rfl, -⟩ := gives_pure.1 hload
    rfl
  | int32 | int64 | float32 | float64 | bool =>
    obtain ⟨-, -, rfl, -⟩ := gives_emitValue.1 hload
    rfl

end Lower

namespace Aligned

variable {Q : Symbol → MachineTy → Prop} {sight : Sight} {s : Scopes Symbol} {d d' : Draft} {name : String}
  {symbol : Symbol} {v : Operand} {env : Env}

/-- What a name is bound to bears out what the analysis knows of the name. -/
theorem bears (h : Aligned (Origin.Bears Q) builtins sight s.entries d.scopes.entries) (hsymbol : s.Finds name symbol)
    {b : Binding} (hb : d.scopes.Finds name b) : ∃ origin, Origin.Bears Q origin name symbol b := by
  obtain ⟨origin, symbol', -, hsymbol', hbears⟩ := h.resolve hb
  rw [hsymbol.unique hsymbol']
  exact ⟨origin, hbears⟩

theorem load (h : Aligned (Origin.Bears Q) builtins sight s.entries d.scopes.entries) (hsymbol : s.Finds name symbol)
    (hgives : (load name).Gives d v d') : Q symbol v.type := by
  obtain ⟨b, d1, hlookup, hvalue⟩ := gives_bind.1 hgives
  obtain ⟨hb, -⟩ := gives_lookup.1 hlookup
  obtain ⟨_, hbears⟩ := h.bears hsymbol hb
  cases b with
  | slot slot =>
    obtain ⟨-, -, rfl, -⟩ := gives_emitValue.1 hvalue
    exact hbears.given
  | value =>
    obtain ⟨rfl, -⟩ := gives_pure.1 hvalue
    exact hbears.given
  | function => exact absurd hvalue gives_fault

theorem assign {span targetSpan : Span} {rhs : Expr Ty}
    (h : Aligned (Origin.Bears Q) builtins sight s.entries d.scopes.entries) (hsymbol : s.Finds name symbol)
    (hgives : (expr env (.assign span (.ident targetSpan name) rhs)).Gives d v d') : Q symbol v.type := by
  obtain ⟨slot, d1, htarget, hrest⟩ := gives_bind.1 hgives
  obtain ⟨b, d2, hlookup, hslot⟩ := gives_bind.1 htarget
  obtain ⟨hb, rfl⟩ := gives_lookup.1 hlookup
  obtain ⟨_, hbears⟩ := h.bears hsymbol hb
  cases b with
  | slot =>
    obtain ⟨rfl, rfl⟩ := gives_pure.1 hslot
    obtain ⟨w, d3, -, hrest⟩ := gives_bind.1 hrest
    obtain ⟨w', d4, hconvert, hrest⟩ := gives_bind.1 hrest
    obtain ⟨_, d5, -, hrest⟩ := gives_bind.1 hrest
    obtain ⟨rfl, -⟩ := gives_pure.1 hrest
    rw [type_of_convert hconvert (hbears.slot_ne_void slot rfl)]
    exact hbears.given
  | value w | function signature => exact absurd hslot gives_fault

/-- A call has the type that the name of the function bears, also if it prints. -/
theorem call {span calleeSpan : Span} {args : List (Expr Ty)}
    (h : Aligned (Origin.Bears Q) builtins sight s.entries d.scopes.entries) (hprint : Q printFunction .i32)
    (hsymbol : s.Finds name symbol) (hkind : symbol.kind = .function)
    (hgives : (expr env (.call span (.ident calleeSpan name) args)).Gives d v d') : Q symbol v.type := by
  rw [expr_call_ident] at hgives
  split at hgives
  · rename_i hname
    have hbuiltin : symbol = printFunction := by
      obtain ⟨_, b, hb, hbears⟩ | ⟨entry, hentry, rfl⟩ := h.resolve_left hsymbol
      · exact absurd hname (hbears.ne_print hkind)
      · obtain rfl : entry = ⟨"print", 0, printFunction⟩ := List.mem_singleton.1 hentry
        rfl
    have hnothing : v = .nothing := by
      cases args with
      | nil => exact absurd hgives gives_fault
      | cons =>
        obtain ⟨_, _, -, hgives⟩ := gives_bind.1 hgives
        obtain ⟨_, _, -, hgives⟩ := gives_bind.1 hgives
        exact (gives_pure.1 hgives).1
    rw [hbuiltin, hnothing]
    exact hprint
  · obtain ⟨signature, d1, hcallee, hrest⟩ := gives_bind.1 hgives
    obtain ⟨hb, -⟩ := gives_callee.1 hcallee
    obtain ⟨_, _, -, hcall⟩ := gives_bind.1 hrest
    obtain ⟨_, hbears⟩ := h.bears hsymbol hb
    rw [type_of_call hcall]
    exact hbears.given

end Aligned

namespace Program.LoweredMatch

variable {p : Program Unit} {strict : Bool} {Q : Symbol → MachineTy → Prop}

/-- Whether what the names in sight of a match give bears out what the analysis knows of them. -/
def Bears (Q : Symbol → MachineTy → Prop) (m : p.LoweredMatch strict) : Prop :=
  ∃ sight, Aligned (Origin.Bears Q) builtins sight m.state.scopes.entries m.draft.scopes.entries

/-- What is borne out by what labels declare and, match by match, by the values that arms name. -/
structure Borne (p : Program Unit) (strict : Bool) (Q : Symbol → MachineTy → Prop) : Prop where
  label : ∀ symbol label, (p.analyze strict).enums.labelType label = (symbol.type, symbol.enumName) →
    Q symbol symbol.type.held
  value : ∀ m : p.LoweredMatch strict, m.Bears Q → ∀ symbol, symbol.type = m.type →
    symbol.enumName = m.scrutinee.enumName? m.state.scopes → Q symbol m.value.type

/-- It is borne out by every declaration. -/
theorem Borne.declares (h : Borne p strict Q) (ha : (p.analyze strict).Accepts p) {index : Nat} {f : FuncDef Ty}
    (hf : f ∈ (p.analyze strict).checked) : Lockstep.Declares (p.analyze strict) p strict index f (Origin.Bears Q) where
  function {i g} hg := by
    have hgiven : (Binding.function (g.signature (p.analyze strict).enums)).given =
        ((p.analyze strict).enums.labelType g.result).1.held := by
      rw [Binding.given, FuncDef.signature_eq]
      cases ((p.analyze strict).enums.labelType g.result).1 <;> rfl
    refine ⟨?_, by simp, fun _ => name_ne_print ha (List.mem_of_getElem? hg)⟩
    rw [hgiven]
    exact h.label _ g.result rfl
  parameter {i q} hq := by
    have hvoid := (ha.checked f hf).head.nonvoid q (List.mem_of_getElem? hq)
    have hgiven : (q.lowered (p.analyze strict).enums).type =
        ((p.analyze strict).enums.labelType (some q.label)).1.held :=
      (Ty.held_eq_machine hvoid).symm
    refine ⟨?_, by simp, by rintro ⟨⟩⟩
    rw [hgiven]
    exact h.label _ (some q.label) rfl
  declaration {_ _ nameSpan modes name label _ _ _ _ _ _ s _ _ i} _ _ _ hwalk _ hclean := by
    obtain ⟨hknown, hvoid⟩ := Walk.known_of_decl hwalk hclean
    have hgiven : (Ty.ofName label.name).machine = ((p.analyze strict).enums.labelType (some label)).1.held := by
      rw [EnumTable.ofName_eq_labelType hknown]
      exact (Ty.held_eq_machine hvoid).symm
    refine ⟨?_, ?_, by rintro ⟨⟩⟩
    · show Q _ (Ty.ofName label.name).machine
      rw [hgiven]
      exact h.label _ (some label) rfl
    · intro slot hslot
      cases hslot
      exact Ty.machine_ne_void (EnumTable.ofName_eq_labelType hknown ▸ hvoid)
  binding hstep haligned _ _ := by
    obtain ⟨m, hm⟩ := hstep.exists_matched rfl rfl
    rw [hm.state, hm.draft] at haligned
    refine ⟨?_, by simp, by rintro ⟨⟩⟩
    rw [Binding.given, ← hm.value]
    exact h.value m haligned _ hm.type.symm hm.enumName.symm

theorem Borne.bears (h : Borne p strict Q) (herrors : (p.analyze strict).hasErrors = false)
    (m : p.LoweredMatch strict) : m.Bears Q := by
  obtain ⟨f, u, hf, -, hstep, -⟩ := m.lockstep herrors
  have ha := accepts_of_hasErrors herrors
  obtain ⟨sight, -, haligned⟩ := hstep.aligned ha (h.declares ha (List.mem_of_getElem? hf))
  exact ⟨sight, haligned⟩

theorem checked (herrors : (p.analyze strict).hasErrors = false) (m : p.LoweredMatch strict) :
    m.scrutinee.Checked m.up m.state.scopes .unknown m.type := by
  obtain ⟨-, -, -, -, -, hclean⟩ := m.lockstep herrors
  exact ((Walk.expr_accepts m.up .unknown _).of_gives m.walks hclean).fact.2.1

end Program.LoweredMatch

/-- Whether a value has the type of its symbol. -/
def Symbol.HeldAs (symbol : Symbol) (type : MachineTy) : Prop :=
  type = symbol.type.held

/-- Where names have the types that the analysis knows, an expression has the type that the analysis knows unless it is
    widened. -/
theorem Lower.type_of_expr {env : Env} {up : Walk.Env} {s : Scopes Symbol} {sight : Sight} :
    ∀ (e : Expr Ty) {d d' : Draft} {v : Operand} {type : Ty},
      Aligned (Origin.Bears Symbol.HeldAs) builtins sight s.entries d.scopes.entries →
      e.Checked up s .unknown type → (expr env e).Gives d v d' → v.type = type.inCode (e.widens s)
  | .literal _ value, _, _, _, _, _, hchecked, h => by
    obtain ⟨-, rfl⟩ := hchecked
    obtain ⟨rfl, -⟩ := gives_pure.1 h
    cases value with
    | int n => by_cases hfits : Literal.fitsInt32 n <;> simp [Operand.type, Constant.ofLiteral,
      Expr.widens, hfits] <;> rfl
    | float | bool => rfl
  | .ident _ _, _, _, _, _, haligned, hchecked, h => by
    obtain ⟨symbol, hfinds, -, rfl⟩ := hchecked
    rw [Expr.widens, Ty.inCode_false]
    exact haligned.load hfinds h
  | .variant _ _ _, _, _, _, _, _, hchecked, h => by
    obtain ⟨-, rfl⟩ := hchecked
    rw [expr, discriminant] at h
    split at h
    · obtain ⟨rfl, -⟩ := gives_pure.1 h
      rfl
    · exact absurd h gives_fault
  | .binary _ op lhs rhs, _, _, _, _, haligned, hchecked, h => by
    obtain ⟨lhsType, rhsType, hlhs, hrhs, rfl⟩ := hchecked
    obtain ⟨v, d1, hv, h⟩ := gives_bind.1 h
    obtain ⟨w, d2, hw, h⟩ := gives_bind.1 h
    have hscopes := (expr_steady env lhs).scopes_eq hv
    have hvtype := type_of_expr lhs haligned hlhs hv
    have hwtype := type_of_expr rhs (hscopes ▸ haligned) hrhs hw
    rw [type_of_binary h, hvtype, hwtype, Expr.widens, ← hlhs.type_eq, ← hrhs.type_eq, BinaryOp.resultType,
      BinaryOp.operandType]
    by_cases hop : op.isComparison
    · simp only [hop, if_true]
      rfl
    · simp only [hop, Bool.false_eq_true, if_false, not_false_eq_true, and_true, Bool.not_false, Bool.true_and]
      exact Ty.wider_inCode lhsType rhsType _ _
  | .assign _ target _, _, _, _, _, haligned, hchecked, h => by
    cases target with
    | ident =>
      obtain ⟨symbol, -, hfinds, -, -, rfl⟩ := hchecked
      rw [Expr.widens, Ty.inCode_false]
      exact haligned.assign hfinds h
    | _ => exact hchecked.elim
  | .call _ callee _, _, _, _, _, haligned, hchecked, h => by
    cases callee with
    | ident =>
      obtain ⟨symbol, hfinds, hkind, -, -, rfl⟩ := hchecked
      rw [Expr.widens, Ty.inCode_false]
      exact haligned.call rfl hfinds hkind h
    | _ => exact hchecked.elim
  | .paren _ inner, _, _, _, _, haligned, hchecked, h => type_of_expr inner haligned hchecked h
  | .select (.mk _ _ _ _), _, _, _, _, _, hchecked, h => by
    obtain ⟨-, -, -, -, -, rfl⟩ := hchecked
    rw [Expr.widens, Ty.inCode_false]
    exact type_of_selection h

namespace Program

variable {p : Program Unit} {strict : Bool}

/-- Where names have the types that the analysis knows, so has a scrutinee, unless it is widened. -/
theorem LoweredMatch.type_value (herrors : (p.analyze strict).hasErrors = false) {m : p.LoweredMatch strict}
    (h : m.Bears Symbol.HeldAs) : m.value.type = m.type.inCode (m.scrutinee.widens m.state.scopes) := by
  obtain ⟨sight, haligned⟩ := h
  exact type_of_expr m.scrutinee (d := { m.draft with labels := m.draft.labels + 1 }) haligned (m.checked herrors)
    m.lowers

/-- If scrutinees have the types that the analysis knows, none of them is widened. -/
theorem LoweredMatch.widens_eq_false (herrors : (p.analyze strict).hasErrors = false)
    (h : ∀ m : p.LoweredMatch strict, m.value.type = m.type.held) (m : p.LoweredMatch strict) :
    m.scrutinee.widens m.state.scopes = false := by
  have hborne : Borne p strict Symbol.HeldAs :=
    ⟨fun _ _ _ => rfl, fun m _ symbol htype _ => by rw [Symbol.HeldAs, htype, h m]⟩
  have htype := m.type_value herrors (hborne.bears herrors m)
  rw [h m, (m.checked herrors).type_eq] at htype
  refine Bool.eq_false_iff.2 fun hwidens => Expr.inCode_ne_held hwidens ?_
  rw [htype, hwidens]

/-- If no scrutinee is widened, all of them have the types that the analysis knows. -/
theorem LoweredMatch.type_value_eq (herrors : (p.analyze strict).hasErrors = false)
    (h : ∀ m : p.LoweredMatch strict, m.scrutinee.widens m.state.scopes = false) (m : p.LoweredMatch strict) :
    m.value.type = m.type.held := by
  have htype (m : p.LoweredMatch strict) (hm : m.Bears Symbol.HeldAs) : m.value.type = m.type.held := by
    rw [m.type_value herrors hm, h m, Ty.inCode_false]
  have hborne : Borne p strict Symbol.HeldAs :=
    ⟨fun _ _ _ => rfl, fun m hm symbol hsymbol _ => by rw [Symbol.HeldAs, hsymbol, htype m hm]⟩
  exact htype m (hborne.bears herrors m)

/-- A program without errors has, at every match that is lowered, the type in code that the analysis takes the scrutinee
    to have, if and only if no scrutinee is an integer literal of more than 32 bits or arithmetic on truth values, or
    arithmetic that takes its width from such operands. -/
theorem scrutinee_types_agree_iff (p : Program Unit) (strict : Bool) (herrors : (p.analyze strict).hasErrors = false) :
    (∀ m : p.LoweredMatch strict, m.value.type = m.type.held) ↔
      ∀ m : p.LoweredMatch strict, m.scrutinee.widens m.state.scopes = false :=
  ⟨LoweredMatch.widens_eq_false herrors, LoweredMatch.type_value_eq herrors⟩

/-- Matches on a literal that does not fit into 32 bits. -/
def wideLiteral : Source :=
  .ofText "fn main() { match 5000000000 { _ => print(1), } }"

def isWideLiteral : Expr Ty → Bool
  | .literal _ (.int 5000000000) => true
  | _ => false

theorem scrutinee_types_agree_iff_wideLiteral : ∃ p, wideLiteral.parse = .ok p ∧ (p.analyze true).hasErrors = false ∧
      ¬∀ m : p.LoweredMatch true, m.value.type = m.type.held := by
  obtain ⟨p, hparse, herrors, hvisit⟩ : ∃ p, wideLiteral.parse = .ok p ∧ (p.analyze true).hasErrors = false ∧
      (visit? (p.analyze true) 0 [0, 0, 0]).any (·.2.1.selects fun _ scrutinee _ => isWideLiteral scrutinee) :=
    exists_eq_ok_of_any (by decide +kernel)
  refine ⟨p, hparse, herrors, fun hagree => ?_⟩
  obtain ⟨m, hm⟩ := LoweredMatch.exists_of_visit? herrors hvisit
  have hwidens := (scrutinee_types_agree_iff p true herrors).1 hagree m
  unfold isWideLiteral at hm
  split at hm
  · rename_i hscrutinee
    rw [hscrutinee] at hwidens
    cases hwidens
  · cases hm

/-- Arithmetic on truth values, matched against both of them. -/
def sumOfTruths : Source :=
  .ofText "fn main() { match true + true { true => print(1), false => print(0), } }"

def isSumOfTruths : Expr Ty → Bool
  | .binary _ .add (.literal _ (.bool true)) (.literal _ (.bool true)) => true
  | _ => false

/-- A match that the analysis accepts as one on a truth value, with an arm for each of them, is a match on a 32-bit
    integer in code. -/
theorem type_value_sumOfTruths : ∃ p, sumOfTruths.parse = .ok p ∧ (p.analyze true).hasErrors = false ∧
      ∃ m : p.LoweredMatch true, m.type = .bool ∧ m.value.type = .i32 := by
  obtain ⟨p, hparse, herrors, hvisit⟩ : ∃ p, sumOfTruths.parse = .ok p ∧ (p.analyze true).hasErrors = false ∧
      (visit? (p.analyze true) 0 [0, 0, 0]).any (·.2.1.selects fun _ scrutinee _ => isSumOfTruths scrutinee) :=
    exists_eq_ok_of_any (by decide +kernel)
  obtain ⟨m, hm⟩ := LoweredMatch.exists_of_visit? herrors hvisit
  have htype := (m.checked herrors).type_eq
  have hlowers := m.lowers
  unfold isSumOfTruths at hm
  split at hm
  · rename_i hscrutinee
    rw [hscrutinee] at htype hlowers
    obtain ⟨v, _, hv, hlowers⟩ := gives_bind.1 hlowers
    obtain ⟨w, _, hw, hlowers⟩ := gives_bind.1 hlowers
    obtain ⟨rfl, -⟩ := gives_pure.1 hv
    obtain ⟨rfl, -⟩ := gives_pure.1 hw
    exact ⟨p, hparse, herrors, m, htype, type_of_binary hlowers⟩
  · cases hm

end Program

/-- Whether a value has a width, and that of a 32-bit integer if its enum is known. -/
def Symbol.HasWidth (symbol : Symbol) (type : MachineTy) : Prop :=
  type ≠ .void ∧ (symbol.enumName ≠ none → type = .i32)

theorem EnumTable.type_of_labelType {enums : EnumTable} {label : Option TypeLabel} {type : Ty} {enumName : String}
    (h : enums.labelType label = (type, some enumName)) : type = .int32 := by
  unfold labelType at h
  split at h
  · cases h
  · split at h
    · cases h
    · split at h
      · cases h
      · split at h <;> cases h
        rfl

namespace Lower

variable {env : Env} {up : Walk.Env} {s : Scopes Symbol} {sight : Sight}

/-- An expression has a width in code, and that of a 32-bit integer if its enum is known. -/
theorem width_of_expr {d d' : Draft} {v : Operand} {type : Ty} : ∀ e : Expr Ty, 
    Aligned (Origin.Bears Symbol.HasWidth) builtins sight s.entries d.scopes.entries →
    e.Checked up s .unknown type → (expr env e).Gives d v d' →
      v.type ≠ .void ∧ (e.enumName? s ≠ none → v.type = .i32)
  | .literal _ value, _, _, h => by
    obtain ⟨rfl, -⟩ := gives_pure.1 h
    have htyped : (Operand.const (.ofLiteral value)).Typed ⟨[], [], [], [], [], .void⟩ := Constant.typed_ofLiteral value
    exact ⟨htyped.type_ne_void, fun henum => absurd rfl henum⟩
  | .ident _ _, haligned, hchecked, h => by
    obtain ⟨symbol, hfinds, hkind, -⟩ := hchecked
    refine (haligned.load hfinds h).imp_right fun hwidth henum => hwidth fun hnone => henum ?_
    obtain ⟨entry, hentry, rfl⟩ := hfinds
    rw [Expr.enumName?, hentry]
    simp only [hkind, hnone, if_true]
  | .variant _ _ _, _, _, h => by
    rw [expr, discriminant] at h
    split at h
    · obtain ⟨rfl, -⟩ := gives_pure.1 h
      exact ⟨by rintro ⟨⟩, fun _ => rfl⟩
    · exact absurd h gives_fault
  | .binary _ op lhs rhs, haligned, hchecked, h => by
    obtain ⟨lhsType, rhsType, hlhs, hrhs, rfl⟩ := hchecked
    obtain ⟨v, d1, hv, h⟩ := gives_bind.1 h
    obtain ⟨w, d2, hw, h⟩ := gives_bind.1 h
    have hscopes := (expr_steady env lhs).scopes_eq hv
    have hvwidth := (width_of_expr lhs haligned hlhs hv).1
    have hwwidth := (width_of_expr rhs (hscopes ▸ haligned) hrhs hw).1
    rw [type_of_binary h]
    exact ⟨op.resultType_ne_void (op.operandType_ne_void hvwidth hwwidth), fun henum => absurd rfl henum⟩
  | .assign _ target _, haligned, hchecked, h => by
    cases target with
    | ident =>
      obtain ⟨symbol, -, hfinds, -⟩ := hchecked
      refine (haligned.assign hfinds h).imp_right fun hwidth henum => hwidth fun hnone => henum ?_
      obtain ⟨entry, hentry, rfl⟩ := hfinds
      rw [Expr.enumName?, Expr.enumName?, hentry]
      simp only [hnone, ite_self]
    | _ => exact hchecked.elim
  | .call _ callee _, haligned, hchecked, h => by
    cases callee with
    | ident =>
      obtain ⟨symbol, hfinds, hkind, -⟩ := hchecked
      have hprint : printFunction.HasWidth .i32 := ⟨by simp, fun _ => rfl⟩
      refine (haligned.call hprint hfinds hkind h).imp_right fun hwidth henum => hwidth fun hnone => henum ?_
      obtain ⟨entry, hentry, rfl⟩ := hfinds
      rw [Expr.enumName?, hentry]
      simp only [hkind, hnone, if_true]
    | _ => exact hchecked.elim
  | .paren _ inner, haligned, hchecked, h => width_of_expr inner haligned hchecked h
  | .select m, _, _, h => by
    rw [type_of_selection h]
    exact ⟨m.note.held_ne_void, fun henum => absurd rfl henum⟩

end Lower

/-- A scrutinee has a width in code, and that of a 32-bit integer if its enum is known. -/
theorem Program.LoweredMatch.width_value {p : Program Unit} {strict : Bool}
    (herrors : (p.analyze strict).hasErrors = false) (m : p.LoweredMatch strict) :
    m.value.type ≠ .void ∧ (m.scrutinee.enumName? m.state.scopes ≠ none → m.value.type = .i32) := by
  have hvalue (m : p.LoweredMatch strict) (hm : m.Bears Symbol.HasWidth) :
      m.value.type ≠ .void ∧ (m.scrutinee.enumName? m.state.scopes ≠ none → m.value.type = .i32) := by
    obtain ⟨sight, haligned⟩ := hm
    exact width_of_expr m.scrutinee (d := { m.draft with labels := m.draft.labels + 1 }) haligned
      (m.checked herrors) m.lowers
  have hborne : Borne p strict Symbol.HasWidth := by
    refine ⟨fun symbol label hlabel => ⟨symbol.type.held_ne_void, fun hsymbol => ?_⟩, fun m hm symbol _ henum => ?_⟩
    · obtain ⟨enumName, henumName⟩ := Option.ne_none_iff_exists'.1 hsymbol
      rw [henumName] at hlabel
      rw [EnumTable.type_of_labelType hlabel]
      rfl
    · rw [Symbol.HasWidth, henum]
      exact hvalue m hm
  exact hvalue m (hborne.bears herrors m)

end LocLang
