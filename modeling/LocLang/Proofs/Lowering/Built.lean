import LocLang.Proofs.Ir.ControlFlow
import LocLang.Proofs.Lowering.Marks
import LocLang.Proofs.Lowering.Steps
import LocLang.Proofs.Tree.Rules

namespace LocLang

/-- Whether there can be such a construct in trees that obey rules. Where no arm is a block, all of them write the
    value. -/
def Construct.Allowed (rules : TreeRules) : Construct → Prop
  | only | both => True
  | loop => rules.loop
  | select arms valued => valued = true → rules.blockArm ∨ ∀ writes ∈ arms, writes = true

namespace Lower

/-- What lowering keeps to: the rules of the tree, and which slots names can refer to. -/
structure Scheme where
  rules : TreeRules
  slot : Slot → Prop
  named : ∀ (name : String) (index : Nat) (type : MachineTy), slot ⟨.named name index, type⟩

/-- The scheme of rules alone. -/
def Scheme.of (rules : TreeRules) : Scheme :=
  ⟨rules, fun _ => True, fun _ _ _ => trivial⟩

/-- The scheme in which names refer to variables. -/
def Scheme.strict (rules : TreeRules) : Scheme :=
  ⟨rules, fun s => s.name.mark? = none, fun _ _ _ => rfl⟩

/-- The work that is built of the operations on a draft, and what it uses the numbers of the constructs around it for.
    Only in a scope that is known to be open (`declares`) it can declare names. -/
inductive Built (S : Scheme) : (declares : Bool) → List Mark → {α : Type} → Lower α → Prop where
  | pure {c : Bool} {α : Type} (a : α) : Built S c [] (pure a : Lower α)
  | fault {c : Bool} {α : Type} (f : Fault) : Built S c [] (fault f : Lower α)
  | bind {c : Bool} {marks marks' : List Mark} {α β : Type} {x : Lower α} {f : α → Lower β} (first : Built S c marks x)
      (rest : ∀ {d a d'}, x.Gives d a d' → Built S c marks' (f a)) : Built S c (marks ++ marks') (x >>= f)
  | nextRegister {c : Bool} : Built S c [] nextRegister
  | formatIndex {c : Bool} (f : PrintFormat) : Built S c [] (formatIndex f)
  | emit {c : Bool} {i : Inst} (code : i.slot? = none) (address : ∀ s ∈ i.address?, S.slot s) : Built S c [] (emit i)
  | access {c : Bool} {i : Inst} (code : i.slot? = none) : Built S c i.mark?.toList (emit i)
  | variable {c : Bool} {name : String} (hname : S.rules.name name) (type : MachineTy) :
      Built S c [] (newSlot (.named name) type)
  | result {c : Bool} (n : Nat) (type : MachineTy) : Built S c [.allocate n] (newSlot (fun _ => .result n) type)
  | terminate {c : Bool} (t : Terminator) (reached : t ≠ .unreachable) : Built S c (t.targets.map .jump) (terminate t)
  | brIfOpen {c : Bool} (label : Label) : Built S c [.jump label] (terminateIfOpen (.br label))
  | place {c : Bool} {label : Label} (inner : .entry ≠ label) : Built S c [.place label] (place label)
  /-- No code follows where no arm of a match matches. -/
  | fail {c : Bool} {marks : List Mark} {α : Type} (n : Nat) {x : Lower α} (rest : Built S c marks x) :
      Built S c (.place (.matchFail n) :: marks) (do
        place (.matchFail n)
        terminate .unreachable
        x)
  | isOpen {c : Bool} : Built S c [] isOpen
  | lookup {c : Bool} {marks : List Mark} {α : Type} (name : String) {f : Binding → Lower α}
      (rest : ∀ b, (∀ s, b = .slot s → S.slot s) → Built S c marks (f b)) : Built S c marks (lookup name >>= f)
  | declare (name : String) {b : Binding} (slot : ∀ s, b = .slot s → S.slot s) : Built S true [] (declare name b)
  | inScope {c : Bool} {marks : List Mark} {x : Lower Unit} (inside : Built S true marks x) :
      Built S c marks (do
        pushScope
        x
        popScope)
  | numbered {c : Bool} {α : Type} {marks : Nat → List Mark} {f : Nat → Lower α} (k : Construct)
      (inside : ∀ n, Built S c (marks n) (f n)) (own : ∀ n, marks n = k.marks n) (allowed : k.Allowed S.rules) :
      Built S c [] (nextLabel >>= f)

namespace Built

variable {S : Scheme} {c : Bool} {α : Type}

theorem of_eq {marks marks' : List Mark} {x : Lower α} (h : Built S c marks x) (heq : marks = marks') :
    Built S c marks' x :=
  heq ▸ h

section Steps

theorem br (label : Label) : Built S c [.jump label] (Lower.terminate (.br label)) :=
  .terminate (.br label) (by simp)

theorem condBr (cond : Operand) (thenTo elseTo : Label) :
    Built S c [.jump thenTo, .jump elseTo] (Lower.terminate (.condBr cond thenTo elseTo)) :=
  .terminate (.condBr cond thenTo elseTo) (by simp)

theorem ret (v : Operand) : Built S c [] (Lower.terminate (.ret v)) :=
  .terminate (.ret v) (by simp)

theorem emitValue {type : MachineTy} {inst : Nat → Inst} (code : ∀ n, (inst n).slot? = none)
    (address : ∀ n, ∀ s ∈ (inst n).address?, S.slot s) : Built S c [] (emitValue type inst) :=
  .bind .nextRegister fun _ => .bind (.emit (code _) (address _)) fun _ => .pure _

theorem convert (v : Operand) (type : MachineTy) : Built S c [] (convert v type) := by
  have hinst (k : Conversion) : Built S c [] (Lower.emitValue type (k.inst v type)) :=
    emitValue (fun _ => by cases k <;> rfl) (fun _ => by cases k <;> simp [Conversion.inst, Inst.address?])
  rw [convert.eq_def]
  split
  · exact .pure _
  · cases v with
    | const => exact .pure _
    | param | reg => exact hinst _

theorem operate (op : BinaryOp) (type : MachineTy) (lhs rhs : Operand) : Built S c [] (operate op type lhs rhs) :=
  emitValue (fun _ => by cases op <;> cases type.isFloating <;> rfl)
    (fun _ => by cases op <;> cases type.isFloating <;> simp [BinaryOp.inst, Inst.address?])

theorem binary (op : BinaryOp) (lhs rhs : Operand) : Built S c [] (binary op lhs rhs) :=
  (convert _ _).bind fun _ => (convert _ _).bind fun _ => operate _ _ _ _

theorem print (v : Operand) : Built S c [] (print v) :=
  (convert _ _).bind fun _ => (Built.pure _).bind fun _ => (formatIndex _).bind fun _ =>
    (emitValue (fun _ => rfl) (fun _ => by simp [Inst.address?])).bind fun _ => .pure _

theorem discriminant (enums : EnumTable) (enumName variant : String) :
    Built S c [] (discriminant enums enumName variant) := by
  rw [Lower.discriminant]
  split
  · exact .pure _
  · exact .fault _

/-- The value that a name refers to. -/
theorem read (name : String) : Built S c [] (Lower.load name) := by
  refine .lookup name fun b hb => ?_
  cases b with
  | slot slot => exact emitValue (fun _ => rfl) fun _ s hs => hb s (by cases hs; rfl)
  | value => exact .pure _
  | function => exact .fault _

theorem callee (name : String) : Built S c [] (callee name) := by
  refine .lookup name fun b _ => ?_
  cases b with
  | function => exact .pure _
  | slot | value => exact .fault _

theorem call (s : Signature) (args : List Operand) : Built S c [] (call s args) := by
  rw [Lower.call]
  split
  · exact (emit rfl (by simp [Inst.address?])).bind fun _ => .pure _
  · exact emitValue (fun _ => rfl) (fun _ => by simp [Inst.address?])

/-- What follows where it is known which variable is assigned to. -/
theorem target (e : Expr Ty) {marks : List Mark} {f : Slot → Lower α}
    (rest : ∀ slot, S.slot slot → Built S c marks (f slot)) : Built S c marks (Lower.target e >>= f) := by
  have hfault (k : Fault) : Built S c marks (Lower.fault k >>= f) :=
    bind (.fault k) fun h => absurd h gives_fault
  cases e with
  | ident _ name =>
    rw [Lower.target, bind_assoc]
    refine .lookup name fun b hb => ?_
    cases b with
    | slot slot => exact rest slot (hb slot rfl)
    | value | function => exact hfault _
  | _ => exact hfault _

theorem declareVariable {name : String} (hname : S.rules.name name) (type : MachineTy) (init : Operand) :
    Built S true [] (declareVariable name type init) := by
  refine bind (.variable hname type) fun hslot => ?_
  obtain ⟨rfl, -⟩ := gives_newSlot.1 hslot
  refine bind (.emit rfl fun s hs => ?_) fun _ => .declare name fun s hs => ?_
  · cases hs
    exact S.named _ _ _
  · cases hs
    exact S.named _ _ _

theorem equalTest (v wanted : Operand) : Built S c [] (equalTest v wanted) :=
  (convert _ _).bind fun _ => operate _ _ _ _

theorem patternTest (enums : EnumTable) (v : Operand) {p : Pattern} (hp : ∀ span name, p = .bind span name → c = true) :
    Built S c [] (patternTest enums v p) := by
  cases p with
  | wildcard => exact .pure _
  | bind span name =>
    obtain rfl := hp span name rfl
    exact (declare name fun _ hs => by cases hs).bind fun _ => .pure _
  | literal => exact equalTest _ _
  | variant => exact (discriminant _ _ _).bind fun _ => equalTest _ _

end Steps

section Values

/-- Whether a match of the type has a value. -/
def valued (type : Ty) : Bool :=
  decide ¬(type = .void ∨ type = .unknown)

variable (n : Nat) (type : Ty)

theorem resultSlot : Built S c (if valued type then [.allocate n] else []) (resultSlot n type) := by
  have hslot (type : MachineTy) : Built S c [.allocate n] (some <$> newSlot (fun _ => .result n) type) :=
    (result n type).bind fun _ => .pure _
  cases type with
  | void | unknown => exact .pure _
  | int32 | int64 | float32 | float64 | bool => exact hslot _

theorem loadResult : Built S c (if valued type then [.load n] else []) (loadResult (slotFor n type)) := by
  have hload (type : MachineTy) : Built S c [.load n] (Lower.loadResult (some ⟨.result n, type⟩)) :=
    nextRegister.bind fun {_ dst _} _ => (access (i := .load dst ⟨.result n, type⟩) rfl).bind fun _ => .pure _
  cases type with
  | void | unknown => exact .pure _
  | int32 | int64 | float32 | float64 | bool => exact hload _

theorem storeResult (v : Operand) : Built S c (if valued type then [.store n] else [])
    (storeResult v (slotFor n type)) := by
  have hstore (type : MachineTy) : Built S c [.store n] (Lower.storeResult v (some ⟨.result n, type⟩)) :=
    (convert _ _).bind fun {_ u _} _ => access (i := .store u ⟨.result n, type⟩) rfl
  cases type with
  | void | unknown => exact .pure _
  | int32 | int64 | float32 | float64 | bool => exact hstore _

end Values

/-- Where names can refer to any slot, the slot of a match is none apart. -/
theorem storeAny (hslot : ∀ s, S.slot s) (v : Operand) (slot : Option Slot) : Built S c []
    (Lower.storeResult v slot) := by
  cases slot with
  | some => exact (convert _ _).bind fun _ => .emit rfl fun s _ => hslot s
  | none => exact .pure _

theorem loadAny (hslot : ∀ s, S.slot s) (slot : Option Slot) : Built S c [] (Lower.loadResult slot) := by
  cases slot with
  | some => exact emitValue (fun _ => rfl) fun _ s _ => hslot s
  | none => exact .pure _

end Built

/-- Whether an arm writes the value of its match, which may have one. -/
def writes (valued : Bool) : Arm Ty → Bool
  | .block _ _ _ => false
  | .value _ _ _ => valued

theorem allowed_select {rules : TreeRules} {blockArm : Prop} {arms : List (Arm Ty)} {valued : Bool}
    (harms : Arm.ObeyAll rules blockArm arms) (hblock : valued = true → blockArm → rules.blockArm) :
    (Construct.select (arms.map (writes valued)) valued).Allowed rules := by
  rintro rfl
  refine Classical.or_iff_not_imp_left.2 fun hnone w hw => ?_
  obtain ⟨arm, harm, rfl⟩ := List.mem_map.1 hw
  cases arm with
  | block => exact absurd (hblock rfl (Arm.obeyAll_iff.1 harms _ harm).1) hnone
  | value _ _ value => rfl

theorem nextTest_eq (valued : Bool) (n k : Nat) (arms : List (Arm Ty)) :
    nextTest n k arms = Construct.next n k (arms.map (writes valued)) := by
  cases arms <;> rfl

theorem armList_cons (env : Env) (n : Nat) (v : Operand) (slot : Option Slot) (k : Nat) (arm : Arm Ty)
    (arms : List (Arm Ty)) : armList env n v slot k (arm :: arms) = (do
      (do
        pushScope
        (do
          place (.matchTest n k)
          let cond ← patternTest env.enums v arm.pattern
          terminate (.condBr cond (.matchArm n k) (nextTest n (k + 1) arms))
          place (.matchArm n k)
          armBody env slot arm
          terminateIfOpen (.br (.matchEnd n)))
        popScope)
      armList env n v slot (k + 1) arms) := by
  rw [armList]
  simp only [bind_assoc]

section Tree

variable {S : Scheme}

variable (env : Env)

mutual

theorem expr_built {c : Bool} : ∀ e : Expr Ty, e.Obeys S.rules → Built S c [] (expr env e)
  | .literal _ _, _ => .pure _
  | .ident _ name, _ => .read name
  | .variant _ _ _, _ => .discriminant _ _ _
  | .binary _ _ lhs rhs, ⟨hlhs, hrhs⟩ =>
    (expr_built lhs hlhs).bind fun _ => (expr_built rhs hrhs).bind fun _ => .binary _ _ _
  | .assign _ place rhs, ⟨_, hrhs⟩ => by
    refine .target place fun slot hslot => (expr_built rhs hrhs).bind fun _ => (Built.convert _ _).bind fun _ =>
      (Built.emit rfl fun s hs => ?_).bind fun _ => .pure _
    cases hs
    exact hslot
  | .call _ function args, ⟨_, hargs⟩ => by
    cases function with
    | ident _ name =>
      rw [expr_call_ident]
      split
      · cases args with
        | nil => exact .fault _
        | cons arg => exact (expr_built arg hargs.1).bind fun _ => (Built.print _).bind fun _ => .pure _
      · exact (Built.callee name).bind fun _ => (arguments_built args hargs name _).bind fun _ => .call _ _
    | _ =>
      exact .fault _
  | .paren _ inner, hinner => expr_built inner hinner
  | .select (.mk span note scrutinee arms), ⟨hscrutinee, harms⟩ =>
    selection_built (.mk span note scrutinee arms) note hscrutinee harms fun _ => id

theorem arguments_built {c : Bool} : ∀ args : List (Expr Ty), Expr.ObeyAll S.rules args →
    ∀ (name : String) (types : List MachineTy), Built S c [] (arguments env name types args)
  | [], _, _, _ => .pure _
  | _ :: _, _, _, [] => .fault _
  | arg :: args, ⟨harg, hargs⟩, name, _ :: types =>
    (expr_built arg harg).bind fun _ => (Built.convert _ _).bind fun _ =>
      (arguments_built args hargs name types).bind fun _ => .pure _

theorem selection_built {c : Bool} {blockArm : Prop} : ∀ (m : Match Ty) (type : Ty),
    m.scrutinee.Obeys S.rules → Arm.ObeyAll S.rules blockArm m.arms →
      (Built.valued type = true → blockArm → S.rules.blockArm) → Built S c [] (selection env type m)
  | .mk _ _ scrutinee arms, type, hscrutinee, harms, hblock => by
    refine .numbered (.select (arms.map (writes (Built.valued type))) (Built.valued type)) (fun n =>
      .bind (expr_built scrutinee hscrutinee) fun _ => .bind (.resultSlot n type) fun hslot => ?_) (fun _ => rfl)
        (allowed_select harms hblock)
    obtain ⟨rfl, -⟩ := gives_resultSlot hslot
    rw [nextTest_eq (Built.valued type)]
    exact .bind (.br _) fun _ => .bind (armList_built n _ _ (fun _ v => .storeResult n type v) 0 arms harms) fun _ =>
      .fail n <| (Built.place (by simp)).bind fun _ => .loadResult n type

theorem armList_built (n : Nat) (v : Operand) (valued : Bool) {slot : Option Slot} {c : Bool} {blockArm : Prop}
    (hstore : ∀ c v, Built S c (if valued then [.store n] else []) (storeResult v slot)) :
    ∀ (k : Nat) (arms : List (Arm Ty)), Arm.ObeyAll S.rules blockArm arms →
      Built S c (Construct.armsMarks n k (arms.map (writes valued))) (armList env n v slot k arms)
  | k, [], _ => .pure _
  | k, arm :: arms, ⟨harm, harms⟩ => by
    rw [armList_cons, nextTest_eq valued]
    exact .of_eq (.bind (.inScope <| (Built.place (by simp)).bind fun _ => (Built.patternTest _ _ fun _ _ _ => rfl).bind
      fun _ => (Built.condBr _ _ _).bind fun _ => (Built.place (by simp)).bind fun _ =>
        (armBody_built n valued hstore arm harm).bind fun _ => .brIfOpen _) fun _ =>
          armList_built n v valued hstore (k + 1) arms harms) rfl

theorem armBody_built (n : Nat) (valued : Bool) {slot : Option Slot} {c : Bool} {blockArm : Prop}
    (hstore : ∀ c v, Built S c (if valued then [.store n] else []) (storeResult v slot)) :
    ∀ arm : Arm Ty, arm.Obeys S.rules blockArm →
      Built S c (if writes valued arm then [.store n] else []) (armBody env slot arm)
  | .block _ _ body, ⟨_, _, hbody⟩ => block_built body hbody
  | .value _ _ value, ⟨_, hvalue⟩ => (expr_built value hvalue).bind fun _ => hstore _ _

theorem block_built {c : Bool} : ∀ b : Block Ty, b.Obeys S.rules → Built S c [] (block env b)
  | .mk _ stmts, hstmts => .inScope (stmtList_built stmts hstmts)

theorem stmtList_built : ∀ stmts : List (Stmt Ty), Stmt.ObeyAll S.rules stmts → Built S true [] (stmtList env stmts)
  | [], _ => .pure _
  | stmt :: stmts, ⟨hstmt, hstmts⟩ => by
    refine (statement_built stmt hstmt fun _ => rfl).bind fun _ => Built.isOpen.bind @fun _ isOpen _ _ => ?_
    cases isOpen with
    | true => exact stmtList_built stmts hstmts
    | false => exact .pure _

theorem chain_built {c : Bool} : ∀ chained : IfChain Ty, chained.Obeys S.rules → Built S c [] (chain env chained)
  | .only _ condition body, ⟨hcondition, hbody⟩ =>
    .numbered .only (fun n => (expr_built condition hcondition).bind fun _ => (Built.convert _ _).bind
      fun _ => (Built.condBr _ _ _).bind fun _ => (Built.place (by simp)).bind fun _ =>
        (block_built body hbody).bind fun _ => (Built.brIfOpen _).bind fun _ => .place (by simp)) (fun _ => rfl) trivial
  | .orElse _ condition body other, ⟨hcondition, hbody, hother⟩ =>
    .numbered .both (fun n => (expr_built condition hcondition).bind fun _ => (Built.convert _ _).bind
      fun _ => (Built.condBr _ _ _).bind fun _ => (Built.place (by simp)).bind fun _ =>
        (block_built body hbody).bind fun _ => (Built.brIfOpen _).bind fun _ => (Built.place (by simp)).bind fun _ =>
          (block_built other hother).bind fun _ => (Built.brIfOpen _).bind fun _ => .place (by simp))
            (fun _ => rfl) trivial
  | .orIf _ condition body next, ⟨hcondition, hbody, hnext⟩ =>
    .numbered .both (fun n => (expr_built condition hcondition).bind fun _ => (Built.convert _ _).bind
      fun _ => (Built.condBr _ _ _).bind fun _ => (Built.place (by simp)).bind fun _ =>
        (block_built body hbody).bind fun _ => (Built.brIfOpen _).bind fun _ => (Built.place (by simp)).bind fun _ =>
          (chain_built next hnext).bind fun _ => (Built.brIfOpen _).bind fun _ => .place (by simp))
            (fun _ => rfl) trivial

theorem statement_built {c : Bool} : ∀ stmt : Stmt Ty, stmt.Obeys S.rules →
    ((∃ span modes name nameSpan label init, stmt = .decl span modes name nameSpan label init) → c = true) →
      Built S c [] (statement env stmt)
  | .block body, hbody, _ => block_built body hbody
  | .decl _ _ _ _ _ init, ⟨hname, _, hinit⟩, hdecl => by
    rw [statement, hdecl ⟨_, _, _, _, _, _, rfl⟩]
    exact (initializer_built _ init hinit).bind fun _ => .declareVariable hname _ _
  | .cond chained, hchain, _ => chain_built chained hchain
  | .loop _ condition body, ⟨hloop, hcondition, hbody⟩, _ =>
    .numbered .loop (fun n => (Built.br _).bind fun _ =>
      (Built.place (by simp)).bind fun _ => (expr_built condition hcondition).bind fun _ => (Built.convert _ _).bind
        fun _ => (Built.condBr _ _ _).bind fun _ => (Built.place (by simp)).bind fun _ =>
          (block_built body hbody).bind fun _ => (Built.brIfOpen _).bind fun _ => .place (by simp)) (fun _ => rfl)
            hloop
  | .select (.mk span note scrutinee arms), ⟨hscrutinee, harms⟩, _ =>
    (selection_built (.mk span note scrutinee arms) .void hscrutinee harms nofun).bind fun _ => .pure _
  | .ret _ none, _, _ => .terminate .retVoid (by simp)
  | .ret _ (some value), hvalue, _ =>
    (expr_built value hvalue).bind fun _ => (Built.convert _ _).bind fun _ => .ret _
  | .expr _ value, hvalue, _ => (expr_built value hvalue).bind fun _ => .pure _

theorem initializer_built (type : MachineTy) {c : Bool} : ∀ init : Option (Expr Ty),
    Expr.ObeyIfAny S.rules init → Built S c [] (initializer env type init)
  | none, _ => .pure _
  | some value, hvalue => (expr_built value hvalue).bind fun _ => .convert _ _

end

end Tree

end Lower

end LocLang
