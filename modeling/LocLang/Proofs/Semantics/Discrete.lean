import LocLang.Proofs.Lowering.Program
import LocLang.Proofs.Parser.Trees
import LocLang.Proofs.Semantics.Fragment

namespace LocLang

open List

def Literal.Integral (literal : Literal) : Prop :=
  (Value.ofLiteral? literal).isSome

/-- What a tree without floats is made of. -/
def TreeRules.integral : TreeRules where
  literal := Literal.Integral
  label label := (Ty.ofName label.name).isFloating = false
  name _ := True
  blockArm := True

instance : DecidablePred TreeRules.integral.literal :=
  fun l => inferInstanceAs (Decidable ((Value.ofLiteral? l).isSome = true))

instance : DecidablePred TreeRules.integral.label :=
  fun l => inferInstanceAs (Decidable ((Ty.ofName l.name).isFloating = false))

instance : DecidablePred TreeRules.integral.name :=
  fun _ => inferInstanceAs (Decidable True)

instance : Decidable TreeRules.integral.blockArm :=
  inferInstanceAs (Decidable True)

instance : Decidable TreeRules.integral.loop :=
  inferInstanceAs (Decidable True)

theorem Literal.Written.discrete {l : Literal} (h : l.Written) (hintegral : l.Integral) : l.Discrete := by
  refine ⟨?_, hintegral⟩
  cases l with
  | int n =>
    have hle : n.natAbs ≤ maxInt := h
    simp only [maxInt] at hle
    show -2 ^ 63 ≤ n ∧ n < 2 ^ 63
    omega
  | float | bool => trivial

namespace Ty

theorem isFloating_wider {a b : Ty} (ha : a.isFloating = false) (hb : b.isFloating = false) :
    (a.wider b).isFloating = false := by
  cases a <;> cases b <;> first | rfl | exact absurd ha (by decide) | exact absurd hb (by decide)

theorem isFloating_joinArm {a b : Ty} (ha : a.isFloating = false) (hb : b.isFloating = false) :
    (Walk.joinArm a b).isFloating = false := by
  rw [Walk.joinArm]
  split
  · exact ha
  · split
    · exact hb
    · exact isFloating_wider ha hb

/-- A type is a type of integers unless it is floating or has no values. -/
theorem isInteger_or_eq_void {t : Ty} (h : t.isFloating = false) : t.isInteger ∨ t = .void := by
  cases t <;> first | exact .inl rfl | exact .inr rfl | cases h

end Ty

namespace EnumTable

variable {enums : EnumTable}

def Narrow (enums : EnumTable) : Prop :=
  ∀ e ∈ enums.enums, e.variants.length ≤ 2 ^ 31

theorem Narrow.discrete (h : enums.Narrow) {enumName variant : String} (hhas : enums.Has enumName variant) :
    enums.Discrete enumName variant := by
  obtain ⟨n, hn⟩ := hhas
  refine ⟨n, hn, ?_⟩
  obtain ⟨e, he, hvariant⟩ := Option.bind_eq_some_iff.1 hn
  have hlt : n < e.variants.length := (findIdx?_eq_some_iff_getElem.1 hvariant).1
  exact Nat.lt_of_lt_of_le hlt (h e (mem_of_find?_eq_some he))

theorem isFloating_labelType {label : Option TypeLabel} (h : (enums.labelType label).1 ≠ .unknown)
    (hlabel : ∀ l ∈ label, TreeRules.integral.label l) : (enums.labelType label).1.isFloating = false := by
  cases label with
  | none => rfl
  | some l =>
    rw [← ofName_eq_labelType h]
    exact hlabel l rfl

end EnumTable

/-- Whether what is declared and what is returned has no floating type, discriminants have 32 bits, and what can be
    called belongs to the program. -/
structure Scopes.Integral (c : Fragment) (s : Scopes Symbol) : Prop where
  narrow : c.enums.Narrow
  result : c.result.isFloating = false
  type : ∀ {name symbol}, s.Finds name symbol → symbol.type.isFloating = false
  params : ∀ {name symbol}, s.Finds name symbol → ∀ t ∈ symbol.params, t.isFloating = false
  calls : ∀ {name symbol}, s.Finds name symbol → symbol.kind = .function → c.Calls name symbol.params.length

namespace Scopes.Integral

variable {c : Fragment} {s : Scopes Symbol}

theorem push (h : s.Integral c) : s.push.Integral c :=
  ⟨h.narrow, h.result, h.type, h.params, h.calls⟩

theorem declare (h : s.Integral c) {name : String} {symbol : Symbol} (htype : symbol.type.isFloating = false)
    (hparams : ∀ t ∈ symbol.params, t.isFloating = false)
    (hcalls : symbol.kind = .function → c.Calls name symbol.params.length) : (s.declare name symbol).Integral c where
  narrow := h.narrow
  result := h.result
  type hfinds := by
    rw [finds_declare] at hfinds
    split at hfinds
    · exact hfinds ▸ htype
    · exact h.type hfinds
  params hfinds := by
    rw [finds_declare] at hfinds
    split at hfinds
    · exact hfinds ▸ hparams
    · exact h.params hfinds
  calls hfinds hkind := by
    rw [finds_declare] at hfinds
    split at hfinds
    · next heq =>
      subst hfinds heq
      exact hcalls hkind
    · exact h.calls hfinds hkind

theorem patternScopes (h : s.Integral c) {type : Ty} (htype : type.isFloating = false) (enumName : Option String)
    (pattern : Pattern) : (pattern.scopes type enumName s).Integral c := by
  cases pattern with
  | bind => exact h.declare htype nofun nofun
  | wildcard | literal | variant => exact h

theorem stmtScopes {μ : Type} (h : s.Integral c) {enums : EnumTable} {stmt : Stmt μ}
    (hlabel : ∀ span modes name nameSpan label init, stmt = .decl span modes name nameSpan label init →
      (enums.labelType (some label)).1.isFloating = false) : (stmt.scopes enums s).Integral c := by
  cases stmt with
  | decl => exact h.declare (hlabel _ _ _ _ _ _ rfl) nofun nofun
  | block | cond | loop | select | ret | expr => exact h

end Scopes.Integral

theorem Pattern.discrete_of_checked {enums : EnumTable} {type : Ty} {pattern : Pattern}
    (h : pattern.Checked enums type) (hparsed : pattern.Obeys .parsed) (hintegral : pattern.Obeys .integral)
    (hnarrow : enums.Narrow) : pattern.Discrete enums := by
  cases pattern with
  | literal => exact Literal.Written.discrete hparsed hintegral
  | variant => exact hnarrow.discrete h.1
  | wildcard | bind => trivial

/-- Where a tree stands in a program with the given functions. -/
def Walk.Env.fragment (env : Walk.Env) (functions : List (FuncDef Ty)) : Fragment :=
  ⟨env.enums, functions, env.result⟩

section Trees

variable {env : Walk.Env} {functions : List (FuncDef Ty)}

mutual

/-- An accepted expression without floats can be run, and its value is no float. -/
theorem Expr.discrete_of_checked {s : Scopes Symbol} {expected type : Ty} :
    ∀ e : Expr Ty, e.Checked env s expected type → e.Obeys .parsed → e.Obeys .integral →
      s.Integral (env.fragment functions) → expected.isFloating = false →
      e.Discrete (env.fragment functions) ∧ type.isFloating = false
  | .literal _ value, h, hparsed, hintegral, _, hexpected => by
    refine ⟨Literal.Written.discrete hparsed hintegral, ?_⟩
    rw [h.2]
    cases value with
    | int =>
      rw [Literal.typeFor]
      split
      · exact hexpected
      · rfl
    | float => cases hintegral
    | bool => rfl
  | .ident _ _, h, _, _, hs, _ => by
    obtain ⟨_, hfinds, _, htype⟩ := h
    exact ⟨trivial, htype ▸ hs.type hfinds⟩
  | .variant _ _ _, h, _, _, hs, _ => ⟨hs.narrow.discrete h.1, h.2 ▸ rfl⟩
  | .binary _ _ lhs rhs, h, hparsed, hintegral, hs, _ => by
    obtain ⟨_, _, hlhs, hrhs, htype⟩ := h
    obtain ⟨hlhs, hlhsType⟩ := Expr.discrete_of_checked lhs hlhs hparsed.1 hintegral.1 hs rfl
    obtain ⟨hrhs, hrhsType⟩ := Expr.discrete_of_checked rhs hrhs hparsed.2 hintegral.2 hs rfl
    refine ⟨⟨hlhs, hrhs⟩, ?_⟩
    rw [htype]
    split
    · rfl
    · exact Ty.isFloating_wider hlhsType hrhsType
  | .assign _ target rhs, h, hparsed, hintegral, hs, _ => by
    cases target with
    | ident _ _ =>
      obtain ⟨symbol, _, hfinds, _, hrhs, htype⟩ := h
      have hsymbol := hs.type hfinds
      exact ⟨(Expr.discrete_of_checked rhs hrhs hparsed.2 hintegral.2 hs hsymbol).1, htype ▸ hsymbol⟩
    | _ => exact h.elim
  | .call _ callee args, h, hparsed, hintegral, hs, _ => by
    cases callee with
    | ident _ _ =>
      obtain ⟨symbol, hfinds, hkind, hlength, hargs, htype⟩ := h
      have hcalls := hs.calls hfinds hkind
      exact ⟨⟨hlength ▸ hcalls, Expr.discreteList_of_checked args hargs hparsed.2 hintegral.2 hs (hs.params hfinds)⟩,
        htype ▸ hs.type hfinds⟩
    | _ => exact h.elim
  | .paren _ inner, h, hparsed, hintegral, hs, hexpected =>
    Expr.discrete_of_checked inner h hparsed hintegral hs hexpected
  | .select (.mk _ _ scrutinee arms), h, hparsed, hintegral, hs, hexpected => by
    obtain ⟨_, joined, hscrutinee, harms, htype, hnote⟩ := h
    obtain ⟨hscrutinee, hscrutineeType⟩ := Expr.discrete_of_checked scrutinee hscrutinee hparsed.1 hintegral.1 hs rfl
    obtain ⟨harms, hjoined⟩ := Arm.discreteList_of_checked arms true harms hparsed.2 hintegral.2 (fun _ => id) hs
      hexpected hscrutineeType rfl
    have hfloating : type.isFloating = false := by
      rw [htype]
      split
      · exact hjoined
      · exact hexpected
    exact ⟨⟨hnote ▸ Ty.isInteger_or_eq_void hfloating, hscrutinee, harms⟩, hfloating⟩

theorem Expr.discreteList_of_checked {s : Scopes Symbol} {params : List Ty} :
    ∀ es : List (Expr Ty), Expr.CheckedList env s params es → Expr.ObeyAll .parsed es → Expr.ObeyAll .integral es →
      s.Integral (env.fragment functions) → (∀ t ∈ params, t.isFloating = false) →
      Expr.DiscreteList (env.fragment functions) es
  | [], _, _, _, _, _ => trivial
  | e :: es, h, hparsed, hintegral, hs, hparams => by
    obtain ⟨⟨_, he⟩, hes⟩ := h
    have hexpected : (params.head?.getD .unknown).isFloating = false := by
      cases params with
      | nil => rfl
      | cons t => exact hparams t mem_cons_self
    exact ⟨(Expr.discrete_of_checked e he hparsed.1 hintegral.1 hs hexpected).1,
      Expr.discreteList_of_checked es hes hparsed.2 hintegral.2 hs fun t ht => hparams t (mem_of_mem_tail ht)⟩

theorem Arm.discreteList_of_checked {s : Scopes Symbol} {expected type : Ty} {enumName : Option String}
    {sofar joined : Ty} {blockArm : Prop} :
    ∀ (arms : List (Arm Ty)) (valued : Bool), Arm.CheckedList env s expected type enumName sofar joined arms →
      Arm.ObeyAll .parsed blockArm arms → Arm.ObeyAll .integral True arms → (valued = true → ¬blockArm) →
      s.Integral (env.fragment functions) → expected.isFloating = false → type.isFloating = false →
      sofar.isFloating = false →
      Arm.DiscreteList (env.fragment functions) valued arms ∧ joined.isFloating = false
  | [], _, h, _, _, _, _, _, _, hsofar => ⟨trivial, h ▸ hsofar⟩
  | .block _ pattern body :: arms, valued, h, hparsed, hintegral, hvalued, hs, hexpected, htype, hsofar => by
    obtain ⟨_, hpattern, ⟨hbody, hnext⟩, harms⟩ := h
    subst hnext
    obtain ⟨harms, hjoined⟩ := Arm.discreteList_of_checked arms valued harms hparsed.2 hintegral.2 hvalued hs hexpected
      htype hsofar
    have hbody := Block.discrete_of_checked body hbody hparsed.1.2.2 hintegral.1.2.2
      (hs.push.patternScopes htype enumName pattern)
    have hpattern := Pattern.discrete_of_checked hpattern hparsed.1.2.1 hintegral.1.2.1 hs.narrow
    exact ⟨⟨hpattern, ⟨fun h => hvalued h hparsed.1.1, hbody⟩, harms⟩, hjoined⟩
  | .value _ pattern value :: arms, valued, h, hparsed, hintegral, hvalued, hs, hexpected, htype, hsofar => by
    obtain ⟨_, hpattern, ⟨_, hvalue, hnext⟩, harms⟩ := h
    have hexpected' : (if expected = .void then Ty.unknown else expected).isFloating = false := by
      split
      · rfl
      · exact hexpected
    obtain ⟨hvalue, hvalueType⟩ := Expr.discrete_of_checked value hvalue hparsed.1.2 hintegral.1.2
      (hs.push.patternScopes htype enumName pattern) hexpected'
    subst hnext
    obtain ⟨harms, hjoined⟩ := Arm.discreteList_of_checked arms valued harms hparsed.2 hintegral.2 hvalued hs hexpected
      htype (Ty.isFloating_joinArm hsofar hvalueType)
    have hpattern := Pattern.discrete_of_checked hpattern hparsed.1.1 hintegral.1.1 hs.narrow
    exact ⟨⟨hpattern, hvalue, harms⟩, hjoined⟩

theorem Block.discrete_of_checked {s : Scopes Symbol} :
      ∀ b : Block Ty, b.Checked env s → b.Obeys .parsed → b.Obeys .integral → s.Integral (env.fragment functions) →
      b.Discrete (env.fragment functions)
  | .mk _ stmts, h, hparsed, hintegral, hs => Stmt.discreteList_of_checked stmts h hparsed hintegral hs.push

theorem Stmt.discreteList_of_checked {s : Scopes Symbol} :
    ∀ stmts : List (Stmt Ty), Stmt.CheckedList env s stmts → Stmt.ObeyAll .parsed stmts →
      Stmt.ObeyAll .integral stmts → s.Integral (env.fragment functions) →
      Stmt.DiscreteList (env.fragment functions) stmts
  | [], _, _, _, _ => trivial
  | stmt :: stmts, h, hparsed, hintegral, hs => by
    obtain ⟨hstmt, hstmts⟩ := h
    refine ⟨Stmt.discrete_of_checked stmt hstmt hparsed.1 hintegral.1 hs,
      Stmt.discreteList_of_checked stmts hstmts hparsed.2 hintegral.2 (hs.stmtScopes ?_)⟩
    rintro _ _ _ _ label _ rfl
    exact EnumTable.isFloating_labelType hstmt.1 (by rintro _ ⟨⟩; exact hintegral.1.2.1)

theorem IfChain.discrete_of_checked {s : Scopes Symbol} :
      ∀ c : IfChain Ty, c.Checked env s → c.Obeys .parsed → c.Obeys .integral → s.Integral (env.fragment functions) →
      c.Discrete (env.fragment functions)
  | .only _ condition body, h, hparsed, hintegral, hs => by
    obtain ⟨⟨_, hcondition⟩, hbody⟩ := h
    exact ⟨(Expr.discrete_of_checked condition hcondition hparsed.1 hintegral.1 hs rfl).1,
      Block.discrete_of_checked body hbody hparsed.2 hintegral.2 hs⟩
  | .orElse _ condition body other, h, hparsed, hintegral, hs => by
    obtain ⟨⟨_, hcondition⟩, hbody, hother⟩ := h
    exact ⟨(Expr.discrete_of_checked condition hcondition hparsed.1 hintegral.1 hs rfl).1,
      Block.discrete_of_checked body hbody hparsed.2.1 hintegral.2.1 hs,
      Block.discrete_of_checked other hother hparsed.2.2 hintegral.2.2 hs⟩
  | .orIf _ condition body next, h, hparsed, hintegral, hs => by
    obtain ⟨⟨_, hcondition⟩, hbody, hnext⟩ := h
    exact ⟨(Expr.discrete_of_checked condition hcondition hparsed.1 hintegral.1 hs rfl).1,
      Block.discrete_of_checked body hbody hparsed.2.1 hintegral.2.1 hs,
      IfChain.discrete_of_checked next hnext hparsed.2.2 hintegral.2.2 hs⟩

theorem Stmt.discrete_of_checked {s : Scopes Symbol} :
    ∀ stmt : Stmt Ty, stmt.Checked env s → stmt.Obeys .parsed → stmt.Obeys .integral →
      s.Integral (env.fragment functions) → stmt.Discrete (env.fragment functions)
  | .block body, h, hparsed, hintegral, hs => Block.discrete_of_checked body h hparsed hintegral hs
  | .decl _ _ _ _ _ none, h, _, hintegral, _ => by
    obtain ⟨hknown, hvoid, _⟩ := h
    have hfloating := EnumTable.isFloating_labelType hknown (by rintro _ ⟨⟩; exact hintegral.2.1)
    exact ⟨(Ty.isInteger_or_eq_void hfloating).resolve_right hvoid, EnumTable.ofName_eq_labelType hknown, trivial⟩
  | .decl _ _ _ _ _ (some init), h, hparsed, hintegral, hs => by
    obtain ⟨hknown, hvoid, _, hinit⟩ := h
    have hfloating := EnumTable.isFloating_labelType hknown (by rintro _ ⟨⟩; exact hintegral.2.1)
    exact ⟨(Ty.isInteger_or_eq_void hfloating).resolve_right hvoid, EnumTable.ofName_eq_labelType hknown,
      (Expr.discrete_of_checked init hinit hparsed.2.2 hintegral.2.2 hs hfloating).1⟩
  | .cond chain, h, hparsed, hintegral, hs => IfChain.discrete_of_checked chain h hparsed hintegral hs
  | .loop _ condition body, h, hparsed, hintegral, hs => by
    obtain ⟨⟨_, hcondition⟩, hbody⟩ := h
    exact ⟨(Expr.discrete_of_checked condition hcondition hparsed.2.1 hintegral.2.1 hs rfl).1,
      Block.discrete_of_checked body hbody hparsed.2.2 hintegral.2.2 hs⟩
  | .select (.mk _ _ scrutinee arms), h, hparsed, hintegral, hs => by
    obtain ⟨_, _, _, hscrutinee, harms, _⟩ := h
    obtain ⟨hscrutinee, hscrutineeType⟩ := Expr.discrete_of_checked scrutinee hscrutinee hparsed.1 hintegral.1 hs rfl
    exact ⟨hscrutinee, (Arm.discreteList_of_checked arms false harms hparsed.2 hintegral.2 nofun hs rfl
      hscrutineeType rfl).1⟩
  | .ret _ none, h, _, _, _ => h
  | .ret _ (some value), h, hparsed, hintegral, hs => by
    obtain ⟨hvoid, _, hvalue⟩ := h
    exact ⟨(Ty.isInteger_or_eq_void hs.result).resolve_right hvoid,
      (Expr.discrete_of_checked value hvalue hparsed hintegral hs hs.result).1⟩
  | .expr _ value, h, hparsed, hintegral, hs => by
    obtain ⟨_, hvalue⟩ := h
    exact (Expr.discrete_of_checked value hvalue hparsed hintegral hs rfl).1

end

end Trees

/-- Names of parameters stay apart in code: a word has no dot. -/
theorem Param.nodup_parameterName {ps : List Param} (h : (ps.map (·.name)).Nodup) (hwords : ∀ p ∈ ps, IsWord p.name) :
    (ps.map fun p => parameterName p.name).Nodup := by
  have hplain (p : Param) (hp : p ∈ ps) : p.name ≠ "entry.arg" := by
    intro heq
    exact (hwords p hp).dot_not_mem (by rw [heq]; decide)
  rw [Nodup, pairwise_map] at h ⊢
  refine h.imp_of_mem fun {p q} hp hq hne => ?_
  rw [parameterName, parameterName]
  split
  · split
    · next hp' hq' => exact absurd (hp'.trans hq'.symm) hne
    · exact fun heq => hplain q hq heq.symm
  · split
    · exact hplain p hp
    · exact hne

namespace FuncDef

variable {enums : EnumTable} {functions : List (FuncDef Ty)} {f : FuncDef Ty}

theorem HeadChecked.isFloating_param (h : f.HeadChecked enums) (hintegral : f.Obeys .integral) {p : Param}
    (hp : p ∈ f.params) : (enums.labelType (some p.label)).1.isFloating = false :=
  EnumTable.isFloating_labelType (h.known p hp) (by rintro _ ⟨⟩; exact (hintegral.params p hp).2)

theorem HeadChecked.isFloating_result (h : f.HeadChecked enums) (hintegral : f.Obeys .integral) :
    (enums.labelType f.result).1.isFloating = false :=
  EnumTable.isFloating_labelType h.result hintegral.result

/-- An accepted function without floats can be run. -/
theorem discrete_of_checked {s : Scopes Symbol} (h : f.Checked enums s) (hparsed : f.Obeys .parsed)
    (hintegral : f.Obeys .integral)
    (hs : s.Integral ⟨enums, functions, (enums.labelType f.result).1⟩) : f.Discrete enums functions where
  params p hp :=
    (Ty.isInteger_or_eq_void (h.head.isFloating_param hintegral hp)).resolve_right (h.head.nonvoid p hp)
  names := Param.nodup_parameterName h.params fun p hp => (hparsed.params p hp).1
  result := Ty.isInteger_or_eq_void (h.head.isFloating_result hintegral)
  body := by
    refine Block.discrete_of_checked f.body h.body hparsed.body hintegral.body ?_
    have hparams (ps : List Param) (hps : ∀ p ∈ ps, p ∈ f.params) {t : Scopes Symbol}
        (ht : t.Integral ⟨enums, functions, (enums.labelType f.result).1⟩) :
        (Param.listScopes enums t ps).Integral ⟨enums, functions, (enums.labelType f.result).1⟩ := by
      induction ps generalizing t with
      | nil => exact ht
      | cons p _ ih =>
        exact ih (fun q hq => hps q (mem_cons_of_mem _ hq))
          (ht.declare (h.head.isFloating_param hintegral (hps p mem_cons_self)) nofun nofun)
    exact hparams f.params (fun _ hp => hp) hs.push

end FuncDef

/-- Whether a program has no floats, and no enum has more variants than there are discriminants. -/
structure Program.Discrete (p : Program Unit) : Prop where
  integral : p.Obeys .integral
  narrow : ∀ e ∈ p.enums, e.variants.length ≤ 2 ^ 31

instance Program.decidableDiscrete (p : Program Unit) : Decidable p.Discrete :=
  decidable_of_iff (p.Obeys .integral ∧ ∀ e ∈ p.enums, e.variants.length ≤ 2 ^ 31)
    ⟨fun ⟨integral, narrow⟩ => ⟨integral, narrow⟩, fun h => ⟨h.integral, h.narrow⟩⟩

namespace Analysis.Accepts

variable {a : Analysis} {p : Program Unit}

/-- The functions of an accepted program and the built-in one can be called, and nothing else. -/
theorem integral_moduleScopes (ha : a.Accepts p) (hintegral : p.Obeys .integral) (hnarrow : a.enums.Narrow)
    {result : Ty} (hresult : result.isFloating = false) :
    (moduleScopes a.enums p.funcs).Integral ⟨a.enums, a.checked, result⟩ := by
  have hdeclare (fs : List (FuncDef Ty)) (hfs : ∀ f ∈ fs, f ∈ a.checked) {s : Scopes Symbol}
      (hs : s.Integral ⟨a.enums, a.checked, result⟩) :
      (Header.declareAll a.enums s (fs.map (·.erase))).Integral ⟨a.enums, a.checked, result⟩ := by
    induction fs generalizing s with
    | nil => exact hs
    | cons f _ ih =>
      have hf := hfs f mem_cons_self
      have hhead := (ha.checked f hf).head
      have hobeys := ha.obeys hintegral hf
      refine ih (fun g hg => hfs g (mem_cons_of_mem _ hg)) (hs.declare ?_ ?_ fun _ => ?_)
      · exact hhead.isFloating_result hobeys
      · intro t ht
        obtain ⟨q, hq, rfl⟩ := mem_map.1 ht
        exact hhead.isFloating_param hobeys hq
      · have hcalls : Fragment.Calls ⟨a.enums, a.checked, result⟩ f.name f.params.length := by
          rw [Fragment.Calls, if_neg (Lower.name_ne_print ha hf)]
          exact ⟨f, find?_of_nodup_key (·.name) (Lower.nodup_checked_names ha) hf, rfl⟩
        have hlength : (Header.symbol a.enums f.erase).params.length = f.params.length := length_map _
        exact hlength ▸ hcalls
  have hempty : (Scopes.empty : Scopes Symbol).Integral ⟨a.enums, a.checked, result⟩ := by
    have hnone {name : String} {symbol : Symbol} (h : Scopes.empty.Finds name symbol) : False := by
      obtain ⟨_, h, _⟩ := h
      cases h
    exact ⟨hnarrow, hresult, fun h => (hnone h).elim, fun h => (hnone h).elim, fun h => (hnone h).elim⟩
  rw [moduleScopes, ← ha.erase_eq]
  exact hdeclare a.checked (fun _ hf => hf) (hempty.declare rfl (by simp [printFunction, Ty.isFloating]) fun _ => rfl)

end Analysis.Accepts

theorem Header.narrow_addEnums {h : Header} {es : List EnumDef} (hh : h.enums.Narrow)
    (hes : ∀ e ∈ es, e.variants.length ≤ 2 ^ 31) : (es.foldl addEnum h).enums.Narrow := by
  induction es generalizing h with
  | nil => exact hh
  | cons e _ ih =>
    refine ih ?_ fun e' he' => hes e' (mem_cons_of_mem _ he')
    rw [addEnum]
    split
    · exact hh
    · intro e' he'
      rcases mem_cons.1 he' with rfl | he'
      · exact hes e mem_cons_self
      · exact hh e' (mem_filter.1 he').1

theorem Program.Discrete.narrow_enums {p : Program Unit} (h : p.Discrete) (strict : Bool) :
    (p.analyze strict).enums.Narrow := by
  rw [Program.enums_analyze]
  have hpredefined : ∀ e ∈ EnumTable.predefined.enums, e.variants.length ≤ 2 ^ 31 := by decide
  exact Header.narrow_addEnums hpredefined h.narrow

/-- The functions of an accepted program without floats can be run. -/
theorem Program.Discrete.checked {source : Source} {p : Program Unit} {strict : Bool} (h : p.Discrete)
    (hparse : source.parse = .ok p) (herrors : (p.analyze strict).hasErrors = false) {f : FuncDef Ty}
    (hf : f ∈ (p.analyze strict).checked) : f.Discrete (p.analyze strict).enums (p.analyze strict).checked :=
  have ha := Program.accepts_of_hasErrors herrors
  have hintegral := ha.obeys h.integral hf
  FuncDef.discrete_of_checked (ha.checked f hf) (ha.obeys (Program.obeys_of_parse hparse) hf) hintegral
    (ha.integral_moduleScopes h.integral (h.narrow_enums strict) ((ha.checked f hf).head.isFloating_result hintegral))

end LocLang
