import LocLang.Proofs.Parser.Completeness
import LocLang.Proofs.Token.Order

namespace LocLang

variable {node : TreeNode}

open Grammar List

/-- The parts of a program that have a span. -/
inductive TreeNode where
  | definition (d : Def Unit)
  | name (span : Span)
  | param (p : Param)
  | label (l : TypeLabel)
  | block (b : Block Unit)
  | stmt (s : Stmt Unit)
  | chain (c : IfChain Unit)
  | select (m : Match Unit)
  | arm (a : Arm Unit)
  | pattern (p : Pattern)
  | expr (e : Expr Unit)

namespace TreeNode

def span : TreeNode → Span
  | definition (.enum e) => e.span
  | definition (.func f) => f.span
  | name span => span
  | param p => p.span
  | label l => l.span
  | block b => b.span
  | stmt s => s.span
  | chain c => c.span
  | select m => m.span
  | arm a => a.span
  | pattern p => p.span
  | expr e => e.span

/-- The nodes that a node is made of, in the order of the text. A literal is the child of the pattern that it is. -/
def children : TreeNode → List TreeNode
  | definition (.enum _) => []
  | definition (.func f) => name f.nameSpan :: f.params.map param ++ f.result.toList.map label ++ [block f.body]
  | name _ => []
  | param p => [label p.label]
  | label l => l.args.map label
  | block b => b.stmts.map stmt
  | stmt (.block body) => [block body]
  | stmt (.decl _ _ _ nameSpan type init) => name nameSpan :: label type :: init.toList.map expr
  | stmt (.cond c) => [chain c]
  | stmt (.loop _ condition body) => [expr condition, block body]
  | stmt (.select m) => [select m]
  | stmt (.ret _ value) => value.toList.map expr
  | stmt (.expr _ value) => [expr value]
  | chain (.only _ condition body) => [expr condition, block body]
  | chain (.orElse _ condition body other) => [expr condition, block body, block other]
  | chain (.orIf _ condition body next) => [expr condition, block body, chain next]
  | select m => expr m.scrutinee :: m.arms.map arm
  | arm (.block _ p body) => [pattern p, block body]
  | arm (.value _ p value) => [pattern p, expr value]
  | pattern (.wildcard _) | pattern (.bind _ _) => []
  | pattern (.literal span value) => [expr (.literal span value)]
  | pattern (.variant _ _ _ args) => (args.getD []).map pattern
  | expr (.literal _ _) | expr (.ident _ _) | expr (.variant _ _ _) => []
  | expr (.binary _ _ lhs rhs) => [expr lhs, expr rhs]
  | expr (.assign _ target rhs) => [expr target, expr rhs]
  | expr (.call _ callee args) => expr callee :: args.map expr
  | expr (.paren _ inner) => [expr inner]
  | expr (.select m) => [select m]

/-- Whether one node ends before another one starts. -/
def Before (a b : TreeNode) : Prop :=
  a.span.stop ≤ b.span.start

/-- Whether the span of a node is well placed: it does not end before it starts, it contains the spans of the children,
    and these do not overlap. -/
structure Nests (node : TreeNode) : Prop where
  ordered : node.span.start ≤ node.span.stop
  contains : ∀ child ∈ node.children, node.span.start ≤ child.span.start ∧ child.span.stop ≤ node.span.stop
  apart : node.children.Pairwise Before

end TreeNode

/-- Whether a node is somewhere in a program. -/
inductive Program.Has (p : Program Unit) : TreeNode → Prop
  | definition {d : Def Unit} (h : d ∈ p.defs) : Has p (.definition d)
  | child {node child : TreeNode} (hnode : Has p node) (h : child ∈ node.children) : Has p child

/-- Whether a node is made of the given tokens. -/
inductive Grammar.Makes : List Token → TreeNode → Prop
  | definition {ts : List Token} {d : Def Unit} (h : Definition ts d) : Makes ts (.definition d)
  | name (t : Token) : Makes [t] (.name (extent [t]))
  | param {ts : List Token} {p : Param} (h : Parameter ts p) : Makes ts (.param p)
  | label {ts : List Token} {l : TypeLabel} (h : TypePhrase ts l) : Makes ts (.label l)
  | block {ts : List Token} {b : Block Unit} (h : Body ts b) : Makes ts (.block b)
  | declStmt {ts : List Token} {s : Stmt Unit} (h : Declaration ts s) : Makes ts (.stmt s)
  | condStmt {ts : List Token} {c : IfChain Unit} (h : Conditional ts c) : Makes ts (.stmt (.cond c))
  | loopStmt {ts : List Token} {s : Stmt Unit} (h : Loop ts s) : Makes ts (.stmt s)
  | selectStmt {ts : List Token} {m : Match Unit} (h : Selection true ts m) : Makes ts (.stmt (.select m))
  | retStmt {ts : List Token} {s : Stmt Unit} (h : Return ts s) : Makes ts (.stmt s)
  | blockStmt {ts : List Token} {b : Block Unit} (h : Body ts b) : Makes ts (.stmt (.block b))
  | exprStmt {ts : List Token} {semi : Token} {e : Expr Unit} (h : Expression ts e) :
      Makes (ts ++ [semi]) (.stmt (.expr (extent (ts ++ [semi])) e))
  | chain {ts : List Token} {c : IfChain Unit} (h : Conditional ts c) : Makes ts (.chain c)
  | select {blocks : Bool} {ts : List Token} {m : Match Unit} (h : Selection blocks ts m) : Makes ts (.select m)
  | arm {blocks : Bool} {ts : List Token} {a : Arm Unit} (h : Case blocks ts a) : Makes ts (.arm a)
  | pattern {ts : List Token} {p : Pattern} (h : PatternPhrase ts p) : Makes ts (.pattern p)
  | expr {ts : List Token} {e : Expr Unit} (h : Expression ts e) : Makes ts (.expr e)
  | literal {ts : List Token} (value : Literal) (hts : ts ≠ []) : Makes ts (.expr (.literal (extent ts) value))

/-- Whether nodes are made of some of the tokens, one after the other. -/
inductive Grammar.Parts : List Token → List TreeNode → Prop
  | none (ts : List Token) : Parts ts []
  | skip (t : Token) {ts : List Token} {nodes : List TreeNode} (h : Parts ts nodes) : Parts (t :: ts) nodes
  | cons {ts us : List Token} {node : TreeNode} {nodes : List TreeNode} (hnode : Makes ts node)
      (hrest : Parts us nodes) : Parts (ts ++ us) (node :: nodes)

namespace Grammar

variable {ts us : List Token} {e : Expr Unit}

theorem TypePhrase.starts : Starts TypePhrase (· = .ident) where
  exists_cons h := by
    cases h with
    | plain hname | generic hname => exact ⟨_, _, rfl, hname⟩

theorem Makes.ne_nil (h : Makes ts node) : ts ≠ [] := by
  cases h with
  | definition h => exact Definition.starts.ne_nil h
  | name t => exact cons_ne_nil t []
  | param h => exact Parameter.starts.ne_nil h
  | label h => exact TypePhrase.starts.ne_nil h
  | block h | blockStmt h => exact Body.starts.ne_nil h
  | declStmt h => exact Declaration.starts.ne_nil h
  | condStmt h | chain h => exact Conditional.starts.ne_nil h
  | loopStmt h => exact Loop.starts.ne_nil h
  | selectStmt h | select h => exact (Selection.starts _).ne_nil h
  | retStmt h => exact Return.starts.ne_nil h
  | exprStmt => exact append_ne_nil_of_right_ne_nil _ (cons_ne_nil _ _)
  | arm h => exact (Case.starts _).ne_nil h
  | pattern h => exact PatternPhrase.starts.ne_nil h
  | expr h => exact Expression.starts.ne_nil h
  | literal _ hts => exact hts

theorem Makes.span_eq (h : Makes ts node) : node.span = extent ts := by
  cases h with
  | definition h =>
    cases h with
    | enum h | func h => cases h <;> rfl
  | param h | label h | block h | declStmt h | condStmt h | loopStmt h | selectStmt h | retStmt h | blockStmt h
  | chain h | select h | arm h => cases h <;> rfl
  | pattern h => exact h.span_eq
  | expr h => exact h.span_eq
  | name | exprStmt | literal => rfl

namespace Parts

variable {nodes nodes' : List TreeNode} {node : TreeNode}

theorem one (h : Makes ts node) : Parts ts [node] := by
  have hone := cons h (none [])
  rwa [append_nil] at hone

/-- A token that makes a node of its own. -/
theorem token {t : Token} (h : Makes [t] node) (hrest : Parts ts nodes) : Parts (t :: ts) (node :: nodes) :=
  cons h hrest

theorem after (ts : List Token) (h : Parts us nodes) : Parts (ts ++ us) nodes := by
  induction ts with
  | nil => exact h
  | cons t _ ih => exact .skip t ih

theorem append (h : Parts ts nodes) (h' : Parts us nodes') : Parts (ts ++ us) (nodes ++ nodes') := by
  induction h with
  | none ts => exact h'.after ts
  | skip t _ ih => exact .skip t ih
  | cons hnode _ ih =>
    rw [append_assoc]
    exact .cons hnode ih

theorem before (h : Parts ts nodes) (us : List Token) : Parts (ts ++ us) nodes := by
  have hboth := h.append (none us)
  rwa [append_nil] at hboth

end Parts

section Lists

variable {α : Type} {R : List Token → α → Prop} {as : List α} {f : α → TreeNode}

theorem Separated.parts (h : Separated R ts as) (hR : ∀ us a, R us a → Makes us (f a)) : Parts ts (as.map f) := by
  induction h with
  | one hitem => exact .one (hR _ _ hitem)
  | more hitem _ _ ih => exact .cons (hR _ _ hitem) (.skip _ ih)

theorem Listed.parts (h : Listed R ts as) (hR : ∀ us a, R us a → Makes us (f a)) : Parts ts (as.map f) := by
  cases h with
  | none => exact .none []
  | some hitems => exact hitems.parts hR

theorem Repeated.parts (h : Repeated R ts as) (hR : ∀ us a, R us a → Parts us [f a]) : Parts ts (as.map f) := by
  induction h with
  | nil => exact .none []
  | cons hitem _ ih => exact (hR _ _ hitem).append ih

end Lists

section Productions

open TreeNode (children)

variable {blocks : Bool} {s : Stmt Unit}

theorem TypePhrase.parts {l : TypeLabel} (h : TypePhrase ts l) : Parts ts (children (.label l)) := by
  cases h with
  | plain => exact .none _
  | generic _ _ hargs => exact .before (.skip _ (.skip _ (hargs.parts fun _ _ => .label))) _

theorem Parameter.parts {p : Param} (h : Parameter ts p) : Parts ts (children (.param p)) := by
  cases h with
  | mk _ _ _ hlabel => exact .after _ (.skip _ (.skip _ (.one (.label hlabel))))

theorem PatternPhrase.parts {p : Pattern} (h : PatternPhrase ts p) : Parts ts (children (.pattern p)) := by
  cases h with
  | wildcard | bind | variant => exact .none _
  | literal | negative => exact .one (.literal _ (cons_ne_nil _ _))
  | applied _ _ _ _ hargs => exact .before (.skip _ (.skip _ (.skip _ (.skip _ (hargs.parts fun _ _ => .pattern))))) _

/-- An operation of any level is an expression. -/
theorem Layered.makes {k : Nat} (h : Layered Operand k ts e) (hk : k ≤ BinaryOp.levels) : Makes ts (.expr e) :=
  .expr (.operation (h.mono hk))

theorem Operand.makes (h : Operand ts e) : Makes ts (.expr e) :=
  (Layered.operand h).makes (Nat.zero_le _)

theorem level_lt_levels (op : BinaryOp) : op.level < BinaryOp.levels := by
  cases op <;> decide

theorem Atom.parts (h : Atom ts e) : Parts ts (children (.expr e)) := by
  cases h with
  | literal | name | variant => exact .none _
  | paren _ hinner => exact .before (.skip _ (.one (.expr hinner))) _
  | select hmatch => exact .one (.select hmatch)

theorem Operand.parts (h : Operand ts e) : Parts ts (children (.expr e)) := by
  cases h with
  | negativeNumber => exact .none _
  | @negation sign _ _ _ hoperand => exact .token (.literal (.int 0) (cons_ne_nil sign [])) (.one hoperand.makes)
  | primary hprimary =>
    cases hprimary with
    | atom hatom => exact hatom.parts
    | call hcallee _ hargs =>
      exact .cons (Operand.primary hcallee).makes (.skip _ (.before (hargs.parts fun _ _ => .expr) _))

theorem Layered.parts {k : Nat} (h : Layered Operand k ts e) : Parts ts (children (.expr e)) := by
  induction h with
  | operand hoperand => exact hoperand.parts
  | lower _ ih => exact ih
  | @binary _ _ _ op _ _ hlhs _ hrhs =>
    have hlevel := level_lt_levels op
    exact .cons (hlhs.makes hlevel) (.skip _ (.one (hrhs.makes (Nat.le_of_lt hlevel))))

theorem Expression.parts (h : Expression ts e) : Parts ts (children (.expr e)) := by
  cases h with
  | operation hoperation => exact hoperation.parts
  | assign htarget _ hrhs => exact .cons (htarget.makes (Nat.le_refl _)) (.skip _ (.one (.expr hrhs)))

theorem Case.parts {a : Arm Unit} (h : Case blocks ts a) : Parts ts (children (.arm a)) := by
  cases h with
  | value hpattern _ hvalue => exact .cons (.pattern hpattern) (.skip _ (.one (.expr hvalue)))
  | block hpattern _ hbody => exact .cons (.pattern hpattern) (.skip _ (.one (.block hbody)))

theorem Arms.parts {arms : List (Arm Unit)} (h : Arms blocks ts arms) : Parts ts (arms.map .arm) := by
  induction arms generalizing ts with
  | nil => exact .none ts
  | cons arm _ ih =>
    cases h with
    | last harm => exact .one (.arm harm)
    | comma harm _ hrest => exact .cons (.arm harm) (.skip _ (ih hrest))
    | block harm hrest => exact .cons (.arm harm) (ih hrest)

theorem Selection.parts {m : Match Unit} (h : Selection blocks ts m) : Parts ts (children (.select m)) := by
  cases h with
  | mk _ hscrutinee _ harms => exact .skip _ (.cons (.expr hscrutinee) (.skip _ (.before harms.parts _)))

/-- A statement is made of its tokens, apart from a semicolon after a match. -/
theorem Statement.parts {stmt : Stmt Unit} (h : Statement ts stmt) : Parts ts [.stmt stmt] := by
  cases h with
  | decl hdecl => exact .one (.declStmt hdecl)
  | cond hchain => exact .one (.condStmt hchain)
  | loop hloop => exact .one (.loopStmt hloop)
  | select hmatch => exact .one (.selectStmt hmatch)
  | selectEnded hmatch => exact .before (.one (.selectStmt hmatch)) _
  | ret hreturn => exact .one (.retStmt hreturn)
  | block hbody => exact .one (.blockStmt hbody)
  | expr hvalue => exact .one (.exprStmt hvalue)

theorem Body.parts {b : Block Unit} (h : Body ts b) : Parts ts (children (.block b)) := by
  cases h with
  | mk _ hstmts => exact .before (.skip _ (hstmts.parts fun _ _ => Statement.parts)) _

theorem Conditional.parts {c : IfChain Unit} (h : Conditional ts c) : Parts ts (children (.chain c)) := by
  cases h with
  | only _ hcondition hbody => exact .skip _ (.cons (.expr hcondition) (.one (.block hbody)))
  | orElse _ hcondition hbody _ hother =>
    exact .append (.skip _ (.cons (.expr hcondition) (.one (.block hbody)))) (.skip _ (.one (.block hother)))
  | orIf _ hcondition hbody _ hnext =>
    exact .append (.skip _ (.cons (.expr hcondition) (.one (.block hbody)))) (.skip _ (.one (.chain hnext)))

theorem Declaration.parts (h : Declaration ts s) : Parts ts (children (.stmt s)) := by
  cases h with
  | plain _ _ _ _ hlabel => exact .before (.after (_ :: _) (.token (.name _) (.skip _ (.one (.label hlabel))))) _
  | valued _ _ _ _ hlabel _ hinit =>
    exact .before (.append (.after (_ :: _) (.token (.name _) (.skip _ (.one (.label hlabel)))))
      (.skip _ (.one (.expr hinit)))) _

theorem Loop.parts (h : Loop ts s) : Parts ts (children (.stmt s)) := by
  cases h with
  | mk _ hcondition hbody => exact .skip _ (.cons (.expr hcondition) (.one (.block hbody)))

theorem Return.parts (h : Return ts s) : Parts ts (children (.stmt s)) := by
  cases h with
  | plain => exact .none _
  | valued _ hvalue => exact .before (.skip _ (.one (.expr hvalue))) _

theorem Parameter.signature_parts (start name left right : Token) {params : List Param}
    (h : Listed Parameter ts params) : Parts (start :: name :: left :: ts ++ [right])
    (.name (extent [name]) :: params.map .param) :=
  .before (.skip start (.token (.name name) (.skip left (h.parts fun _ _ => .param)))) [right]

theorem FunctionDefinition.parts {f : FuncDef Unit} (h : FunctionDefinition ts f) :
    Parts ts (children (.definition (.func f))) := by
  cases h with
  | plain _ _ _ hparams _ hbody =>
    rw [children, Option.toList_none, map_nil, append_nil]
    exact (Parameter.signature_parts _ _ _ _ hparams).append (.one (.block hbody))
  | returning _ _ _ hparams _ _ hresult hbody =>
    exact ((Parameter.signature_parts _ _ _ _ hparams).append (.skip _ (.one (.label hresult)))).append
      (.one (.block hbody))

theorem Definition.parts {d : Def Unit} (h : Definition ts d) : Parts ts (children (.definition d)) := by
  cases h with
  | enum => exact .none _
  | func hfunc => exact hfunc.parts

end Productions

/-- The children of a node are made of its tokens. -/
theorem Makes.parts (h : Makes ts node) : Parts ts node.children := by
  cases h with
  | definition h => exact h.parts
  | name => exact .none _
  | param h => exact h.parts
  | label h => exact h.parts
  | block h => exact h.parts
  | declStmt h => exact h.parts
  | condStmt h => exact .one (.chain h)
  | loopStmt h => exact h.parts
  | selectStmt h => exact .one (.select h)
  | retStmt h => exact h.parts
  | blockStmt h => exact .one (.block h)
  | exprStmt h => exact .before (.one (.expr h)) _
  | chain h => exact h.parts
  | select h => exact h.parts
  | arm h => exact h.parts
  | pattern h => exact h.parts
  | expr h => exact h.parts
  | literal => exact .none _

end Grammar

section Extent

variable {ts us : List Token} {t : Token}

theorem exists_start_extent (h : ts ≠ []) : ∃ t ∈ ts, (extent ts).start = t.span.start := by
  cases ts with
  | nil => exact absurd rfl h
  | cons t => exact ⟨t, mem_cons_self, rfl⟩

theorem exists_stop_extent (h : ts ≠ []) : ∃ t ∈ ts, (extent ts).stop = t.span.stop := by
  obtain ⟨ts, t, rfl⟩ := (eq_nil_or_concat ts).resolve_left h
  exact ⟨t, by simp, by simp [extent]⟩

namespace Token.InOrder

theorem start_extent_le (h : InOrder ts) (ht : t ∈ ts) : (extent ts).start ≤ t.span.start := by
  cases ts with
  | nil => cases ht
  | cons u =>
    rcases mem_cons.1 ht with rfl | ht
    · exact Pos.le_refl _
    · exact Pos.le_trans (h.ordered u mem_cons_self) (rel_of_pairwise_cons h.apart ht)

theorem le_stop_extent (h : InOrder ts) (ht : t ∈ ts) : t.span.stop ≤ (extent ts).stop := by
  obtain ⟨ts, u, rfl⟩ := (eq_nil_or_concat ts).resolve_left (ne_nil_of_mem ht)
  rw [concat_eq_append] at h ht ⊢
  have hstop : (extent (ts ++ [u])).stop = u.span.stop := by simp [extent]
  rw [hstop]
  rcases mem_append.1 ht with ht | ht
  · have hlast := (pairwise_append.1 h.apart).2.2 t ht u mem_cons_self
    exact Pos.le_trans hlast (h.ordered u (by simp))
  · obtain rfl := mem_singleton.1 ht
    exact Pos.le_refl _

theorem extent_ordered (h : InOrder ts) (hts : ts ≠ []) : (extent ts).start ≤ (extent ts).stop := by
  obtain ⟨t, ht, hstart⟩ := exists_start_extent hts
  rw [hstart]
  exact Pos.le_trans (h.ordered t ht) (h.le_stop_extent ht)

theorem extent_contains (h : InOrder ts) (hus : us.Sublist ts) (hne : us ≠ []) :
    (extent ts).start ≤ (extent us).start ∧ (extent us).stop ≤ (extent ts).stop := by
  obtain ⟨t, ht, hstart⟩ := exists_start_extent hne
  obtain ⟨u, hu, hstop⟩ := exists_stop_extent hne
  rw [hstart, hstop]
  exact ⟨h.start_extent_le (hus.subset ht), h.le_stop_extent (hus.subset hu)⟩

end Token.InOrder

end Extent

namespace Grammar

variable {ts : List Token} {nodes : List TreeNode} {node : TreeNode}

theorem Parts.exists_makes (h : Parts ts nodes) (hnode : node ∈ nodes) : ∃ us, us.Sublist ts ∧ Makes us node := by
  induction h with
  | none => cases hnode
  | skip t _ ih =>
    obtain ⟨us, hus, hmakes⟩ := ih hnode
    exact ⟨us, hus.cons t, hmakes⟩
  | @cons us vs _ _ hfirst _ ih =>
    rcases mem_cons.1 hnode with rfl | hnode
    · exact ⟨us, sublist_append_left us vs, hfirst⟩
    · obtain ⟨ws, hws, hmakes⟩ := ih hnode
      exact ⟨ws, hws.trans (sublist_append_right us vs), hmakes⟩

theorem Parts.pairwise_before (h : Parts ts nodes) (horder : Token.InOrder ts) : nodes.Pairwise TreeNode.Before := by
  induction h with
  | none => exact .nil
  | skip _ _ ih => exact ih (horder.sublist (sublist_cons_self _ _))
  | @cons us vs _ _ hfirst hrest ih =>
    refine .cons (fun other hother => ?_) (ih (horder.sublist (sublist_append_right us vs)))
    obtain ⟨ws, hws, hmakes⟩ := hrest.exists_makes hother
    obtain ⟨t, ht, hstop⟩ := exists_stop_extent hfirst.ne_nil
    obtain ⟨u, hu, hstart⟩ := exists_start_extent hmakes.ne_nil
    rw [TreeNode.Before, hfirst.span_eq, hmakes.span_eq, hstop, hstart]
    exact (pairwise_append.1 horder.apart).2.2 t ht u (hws.subset hu)

/-- A node that is made of tokens in order is well placed. -/
theorem Makes.nests (h : Makes ts node) (horder : Token.InOrder ts) : node.Nests where
  ordered := h.span_eq ▸ horder.extent_ordered h.ne_nil
  contains child hchild := by
    obtain ⟨us, hus, hmakes⟩ := h.parts.exists_makes hchild
    rw [h.span_eq, hmakes.span_eq]
    exact horder.extent_contains hus hmakes.ne_nil
  apart := h.parts.pairwise_before horder

end Grammar

namespace Program

variable {p : Program Unit} {ts : List Token}

theorem parts_of_file (h : File ts p) : Parts ts (p.defs.map .definition) := by
  cases h with
  | mk hdefs => exact hdefs.parts fun _ _ h => .one (.definition h)

/-- Every node of a file is made of some of its tokens. -/
theorem Has.exists_makes (h : File ts p) (hnode : p.Has node) : ∃ us, us.Sublist ts ∧ Makes us node := by
  induction hnode with
  | definition hd => exact (parts_of_file h).exists_makes (mem_map_of_mem hd)
  | child _ hchild ih =>
    obtain ⟨us, hus, hmakes⟩ := ih
    obtain ⟨vs, hvs, hmakes'⟩ := hmakes.parts.exists_makes hchild
    exact ⟨vs, hvs.trans hus, hmakes'⟩

end Program

/-- In the tree of a text every node ends no earlier than it starts, contains its children, and its children do not
    overlap; nor do the definitions. -/
theorem Source.spans_nest {source : Source} {p : Program Unit} (h : source.parse = .ok p) :
    (∀ node, p.Has node → node.Nests) ∧ (p.defs.map TreeNode.definition).Pairwise TreeNode.Before := by
  obtain ⟨ts, eof, rest, htokens, -, hfile⟩ := Program.exists_file_of_ofTokens h
  have horder : Token.InOrder ts := (Scanner.upTo_inOrder htokens).1
  refine ⟨fun node hnode => ?_, (Program.parts_of_file hfile).pairwise_before horder⟩
  obtain ⟨us, hus, hmakes⟩ := hnode.exists_makes hfile
  exact hmakes.nests (horder.sublist hus)

theorem Source.spans_nest_sampler : ∃ p, Program.sampler.parse = .ok p ∧ p.defs.length = 2 ∧
    (∀ node, p.Has node → node.Nests) ∧ (p.defs.map TreeNode.definition).Pairwise TreeNode.Before := by
  obtain ⟨p, hp, hlength⟩ : ∃ p, Program.sampler.parse = .ok p ∧ p.defs.length = 2 :=
      exists_eq_ok_of_any (by decide +kernel)
  exact ⟨p, hp, hlength, spans_nest hp⟩

end LocLang
