import LocLang.Parser.Program

namespace LocLang

/-- From the start of the first token to the end of the last. -/
def extent (ts : List Token) : Span :=
  ⟨ts.head?.elim .origin (·.span.start), ts.getLast?.elim .origin (·.span.stop)⟩

namespace Grammar

section Lists

variable {α : Type} (Item : List Token → α → Prop)

/-- `item {',' item}` -/
inductive Separated : List Token → List α → Prop
  | one {ts : List Token} {a : α} (hitem : Item ts a) : Separated ts [a]
  | more {ts us : List Token} {comma : Token} {a : α} {as : List α} (hitem : Item ts a) (hcomma : comma.kind = .comma)
      (hrest : Separated us as) : Separated (ts ++ comma :: us) (a :: as)

/-- `[item {',' item}]` -/
inductive Listed : List Token → List α → Prop
  | none : Listed [] []
  | some {ts : List Token} {as : List α} (hitems : Separated Item ts as) : Listed ts as

/-- `{item}` -/
inductive Repeated : List Token → List α → Prop
  | nil : Repeated [] []
  | cons {ts us : List Token} {a : α} {as : List α} (hitem : Item ts a) (hrest : Repeated us as) :
      Repeated (ts ++ us) (a :: as)

end Lists

/-- Operands with left-associative operators between them. Level 0 is the operands themselves, and each level after it
    is `lower {operator lower}` with the level below it and the operators of that level. -/
inductive Layered (Operand : List Token → Expr Unit → Prop) : Nat → List Token → Expr Unit → Prop
  | operand {ts : List Token} {e : Expr Unit} (hoperand : Operand ts e) : Layered Operand 0 ts e
  | lower {k : Nat} {ts : List Token} {e : Expr Unit} (hlower : Layered Operand k ts e) : Layered Operand (k + 1) ts e
  | binary {ts us : List Token} {t : Token} {op : BinaryOp} {lhs rhs : Expr Unit}
      (hlhs : Layered Operand (op.level + 1) ts lhs) (hop : BinaryOp.ofToken? t.kind = some op)
      (hrhs : Layered Operand op.level us rhs) :
      Layered Operand (op.level + 1) (ts ++ t :: us) (.binary (extent (ts ++ t :: us)) op lhs rhs)

/-- `type := IDENT ['<' type {',' type} '>']` -/
inductive TypePhrase : List Token → TypeLabel → Prop
  | plain {name : Token} (hname : name.kind = .ident) : TypePhrase [name] (.mk (extent [name]) name.text [])
  | generic {name left right : Token} {ts : List Token} {args : List TypeLabel} (hname : name.kind = .ident)
      (hleft : left.kind = .lt) (hargs : Separated TypePhrase ts args) (hright : right.kind = .gt) :
      TypePhrase (name :: left :: ts ++ [right]) (.mk (extent (name :: left :: ts ++ [right])) name.text args)

/-- `['local' | 'global']` -/
inductive LocalityPhrase : List Token → Locality → Prop
  | unspecified : LocalityPhrase [] .unspecified
  | asLocal {t : Token} (ht : t.kind = .kwLocal) : LocalityPhrase [t] .asLocal
  | asGlobal {t : Token} (ht : t.kind = .kwGlobal) : LocalityPhrase [t] .asGlobal

/-- `['unique' | 'shared']` -/
inductive UniquenessPhrase : List Token → Uniqueness → Prop
  | unspecified : UniquenessPhrase [] .unspecified
  | unique {t : Token} (ht : t.kind = .kwUnique) : UniquenessPhrase [t] .unique
  | shared {t : Token} (ht : t.kind = .kwShared) : UniquenessPhrase [t] .shared

/-- `modes := ['local' | 'global'] ['unique' | 'shared']` -/
inductive ModesPhrase : List Token → Modes → Prop
  | mk {ts us : List Token} {l : Locality} {u : Uniqueness} (hl : LocalityPhrase ts l) (hu : UniquenessPhrase us u) :
      ModesPhrase (ts ++ us) ⟨l, u⟩

/-- `literal := INT | FLOAT | 'true' | 'false'`, where numbers have to be in range. -/
inductive LiteralToken : Token → Literal → Prop
  | int {t : Token} (ht : t.kind = .intLit) (hrange : Number.digitsValue t.text.toList ≤ Literal.maxInt) :
      LiteralToken t (.int (Number.digitsValue t.text.toList))
  | float {t : Token} {x : Double} (ht : t.kind = .floatLit)
      (hvalue : (Decimal.ofText t.text.toList).toDouble? = some x) : LiteralToken t (.float x)
  | true {t : Token} (ht : t.kind = .kwTrue) : LiteralToken t (.bool true)
  | false {t : Token} (ht : t.kind = .kwFalse) : LiteralToken t (.bool false)

/-- `'.' | '::'` -/
def IsVariantSign (t : Token) : Prop :=
  t.kind = .dot ∨ t.kind = .dcolon

/-- `pattern := '_' | ['-'] (INT | FLOAT) | 'true' | 'false' | IDENT`
    `| IDENT ('.' | '::') IDENT ['(' [pattern {',' pattern}] ')']` -/
inductive PatternPhrase : List Token → Pattern → Prop
  | wildcard {t : Token} (ht : t.kind = .ident) (hblank : t.text = "_") : PatternPhrase [t] (.wildcard (extent [t]))
  | bind {t : Token} (ht : t.kind = .ident) (hname : t.text ≠ "_") : PatternPhrase [t] (.bind (extent [t]) t.text)
  | literal {t : Token} {value : Literal} (hvalue : LiteralToken t value) :
      PatternPhrase [t] (.literal (extent [t]) value)
  | negative {sign t : Token} {value negated : Literal} (hsign : sign.kind = .minus) (hvalue : LiteralToken t value)
      (hnegated : value.neg? = some negated) : PatternPhrase [sign, t] (.literal (extent [sign, t]) negated)
  | variant {enum sign name : Token} (henum : enum.kind = .ident) (hsign : IsVariantSign sign)
      (hname : name.kind = .ident) : PatternPhrase [enum, sign, name]
      (.variant (extent [enum, sign, name]) enum.text name.text none)
  | applied {enum sign name left right : Token} {ts : List Token} {args : List Pattern} (henum : enum.kind = .ident)
      (hsign : IsVariantSign sign) (hname : name.kind = .ident) (hleft : left.kind = .lparen)
      (hargs : Listed PatternPhrase ts args) (hright : right.kind = .rparen) :
      PatternPhrase (enum :: sign :: name :: left :: ts ++ [right])
        (.variant (extent (enum :: sign :: name :: left :: ts ++ [right])) enum.text name.text (some args))

mutual

/-- `expr := operation ['=' expr]`, where an operation is of the highest level. -/
inductive Expression : List Token → Expr Unit → Prop
  | operation {ts : List Token} {e : Expr Unit} (hoperation : Layered Operand BinaryOp.levels ts e) : Expression ts e
  | assign {ts us : List Token} {sign : Token} {target rhs : Expr Unit}
      (htarget : Layered Operand BinaryOp.levels ts target) (hsign : sign.kind = .assign) (hrhs : Expression us rhs) :
      Expression (ts ++ sign :: us) (.assign (extent (ts ++ sign :: us)) target rhs)

/-- `operand := {'-'} primary`. A minus before a number is part of the number; before anything else it subtracts from
    zero. -/
inductive Operand : List Token → Expr Unit → Prop
  | primary {ts : List Token} {e : Expr Unit} (hprimary : Primary ts e) : Operand ts e
  | negativeNumber {sign : Token} {ts : List Token} {span : Span} {value negated : Literal} (hsign : sign.kind = .minus)
      (hnumber : Operand ts (.literal span value)) (hnegated : value.neg? = some negated) :
      Operand (sign :: ts) (.literal (extent (sign :: ts)) negated)
  | negation {sign : Token} {ts : List Token} {e : Expr Unit} (hsign : sign.kind = .minus) (hoperand : Operand ts e)
      (hother : ∀ span value, e = .literal span value → value.neg? = none) :
      Operand (sign :: ts) (.binary (extent (sign :: ts)) .sub (.literal (extent [sign]) (.int 0)) e)

/-- `primary := atom {'(' [expr {',' expr}] ')'}` -/
inductive Primary : List Token → Expr Unit → Prop
  | atom {ts : List Token} {e : Expr Unit} (hatom : Atom ts e) : Primary ts e
  | call {ts us : List Token} {left right : Token} {callee : Expr Unit} {args : List (Expr Unit)}
      (hcallee : Primary ts callee) (hleft : left.kind = .lparen) (hargs : Listed Expression us args)
      (hright : right.kind = .rparen) : Primary (ts ++ (left :: us ++ [right]))
      (.call (extent (ts ++ (left :: us ++ [right]))) callee args)

/-- `atom := literal | IDENT [('.' | '::') IDENT] | '(' expr ')' | match` -/
inductive Atom : List Token → Expr Unit → Prop
  | literal {t : Token} {value : Literal} (hvalue : LiteralToken t value) : Atom [t] (.literal (extent [t]) value)
  | name {t : Token} (ht : t.kind = .ident) : Atom [t] (.ident (extent [t]) t.text)
  | variant {enum sign name : Token} (henum : enum.kind = .ident) (hsign : IsVariantSign sign)
      (hname : name.kind = .ident) : Atom [enum, sign, name] (.variant (extent [enum, sign, name]) enum.text name.text)
  | paren {left right : Token} {ts : List Token} {e : Expr Unit} (hleft : left.kind = .lparen)
      (hinner : Expression ts e) (hright : right.kind = .rparen) :
      Atom (left :: ts ++ [right]) (.paren (extent (left :: ts ++ [right])) e)
  | select {ts : List Token} {m : Match Unit} (hmatch : Selection false ts m) : Atom ts (.select m)

/-- `match := 'match' expr '{' {arm} '}'`; the flag says whether arms may have blocks. -/
inductive Selection : Bool → List Token → Match Unit → Prop
  | mk {blocks : Bool} {start left right : Token} {ts us : List Token} {scrutinee : Expr Unit} {arms : List (Arm Unit)}
      (hstart : start.kind = .kwMatch) (hscrutinee : Expression ts scrutinee) (hleft : left.kind = .lbrace)
      (harms : Arms blocks us arms) (hright : right.kind = .rbrace) :
        Selection blocks (start :: ts ++ (left :: us ++ [right]))
        (.mk (extent (start :: ts ++ (left :: us ++ [right]))) () scrutinee arms)

/-- `{arm [',']}`, where the comma may be left out after a block and at the end only. -/
inductive Arms : Bool → List Token → List (Arm Unit) → Prop
  | none {blocks : Bool} : Arms blocks [] []
  | last {blocks : Bool} {ts : List Token} {arm : Arm Unit} (harm : Case blocks ts arm) : Arms blocks ts [arm]
  | comma {blocks : Bool} {ts us : List Token} {comma : Token} {arm : Arm Unit} {arms : List (Arm Unit)}
      (harm : Case blocks ts arm) (hcomma : comma.kind = .comma) (hrest : Arms blocks us arms) :
      Arms blocks (ts ++ comma :: us) (arm :: arms)
  | block {blocks : Bool} {ts us : List Token} {span : Span} {pattern : Pattern} {body : Block Unit}
      {arms : List (Arm Unit)} (harm : Case blocks ts (.block span pattern body)) (hrest : Arms blocks us arms) :
      Arms blocks (ts ++ us) (.block span pattern body :: arms)

/-- `arm := pattern '=>' (block | expr)` -/
inductive Case : Bool → List Token → Arm Unit → Prop
  | value {blocks : Bool} {ts us : List Token} {arrow : Token} {pattern : Pattern} {value : Expr Unit}
      (hpattern : PatternPhrase ts pattern) (harrow : arrow.kind = .fatArrow) (hvalue : Expression us value) :
      Case blocks (ts ++ arrow :: us) (.value (extent (ts ++ arrow :: us)) pattern value)
  | block {ts us : List Token} {arrow : Token} {pattern : Pattern} {body : Block Unit}
      (hpattern : PatternPhrase ts pattern) (harrow : arrow.kind = .fatArrow) (hbody : Body us body) :
      Case true (ts ++ arrow :: us) (.block (extent (ts ++ arrow :: us)) pattern body)

/-- `block := '{' {stmt} '}'` -/
inductive Body : List Token → Block Unit → Prop
  | mk {left right : Token} {ts : List Token} {stmts : List (Stmt Unit)} (hleft : left.kind = .lbrace)
      (hstmts : Repeated Statement ts stmts) (hright : right.kind = .rbrace) :
      Body (left :: ts ++ [right]) (.mk (extent (left :: ts ++ [right])) stmts)

/-- `if := 'if' expr block ['else' (block | if)]` -/
inductive Conditional : List Token → IfChain Unit → Prop
  | only {start : Token} {ts us : List Token} {condition : Expr Unit} {body : Block Unit} (hstart : start.kind = .kwIf)
      (hcondition : Expression ts condition) (hbody : Body us body) :
      Conditional (start :: ts ++ us) (.only (extent (start :: ts ++ us)) condition body)
  | orElse {start sign : Token} {ts us vs : List Token} {condition : Expr Unit} {body other : Block Unit}
      (hstart : start.kind = .kwIf) (hcondition : Expression ts condition) (hbody : Body us body)
      (hsign : sign.kind = .kwElse) (hother : Body vs other) :
      Conditional (start :: ts ++ us ++ sign :: vs)
      (.orElse (extent (start :: ts ++ us ++ sign :: vs)) condition body other)
  | orIf {start sign : Token} {ts us vs : List Token} {condition : Expr Unit} {body : Block Unit} {next : IfChain Unit}
      (hstart : start.kind = .kwIf) (hcondition : Expression ts condition) (hbody : Body us body)
      (hsign : sign.kind = .kwElse) (hnext : Conditional vs next) :
      Conditional (start :: ts ++ us ++ sign :: vs)
      (.orIf (extent (start :: ts ++ us ++ sign :: vs)) condition body next)

/-- `declaration := 'let' modes IDENT ':' type ['=' expr] ';'` -/
inductive Declaration : List Token → Stmt Unit → Prop
  | plain {start name colon semi : Token} {ts us : List Token} {modes : Modes} {label : TypeLabel}
      (hstart : start.kind = .kwLet)
      (hmodes : ModesPhrase ts modes) (hname : name.kind = .ident) (hcolon : colon.kind = .colon)
        (hlabel : TypePhrase us label)
      (hsemi : semi.kind = .semi) : Declaration (start :: ts ++ (name :: colon :: us) ++ [semi])
        (.decl (extent (start :: ts ++ (name :: colon :: us) ++ [semi])) modes name.text (extent [name]) label none)
  | valued {start name colon sign semi : Token} {ts us vs : List Token} {modes : Modes}
      {label : TypeLabel} {init : Expr Unit}
      (hstart : start.kind = .kwLet) (hmodes : ModesPhrase ts modes) (hname : name.kind = .ident)
        (hcolon : colon.kind = .colon)
      (hlabel : TypePhrase us label) (hsign : sign.kind = .assign) (hinit : Expression vs init)
        (hsemi : semi.kind = .semi) :
      Declaration (start :: ts ++ (name :: colon :: us) ++ (sign :: vs) ++ [semi])
        (.decl (extent (start :: ts ++ (name :: colon :: us) ++ (sign :: vs) ++ [semi])) modes name.text
          (extent [name]) label
          (some init))

/-- `loop := 'while' expr block` -/
inductive Loop : List Token → Stmt Unit → Prop
  | mk {start : Token} {ts us : List Token} {condition : Expr Unit} {body : Block Unit} (hstart : start.kind = .kwWhile)
      (hcondition : Expression ts condition) (hbody : Body us body) :
      Loop (start :: ts ++ us) (.loop (extent (start :: ts ++ us)) condition body)

/-- `return := 'return' [expr] ';'` -/
inductive Return : List Token → Stmt Unit → Prop
  | plain {start semi : Token} (hstart : start.kind = .kwReturn) (hsemi : semi.kind = .semi) :
      Return [start, semi] (.ret (extent [start, semi]) none)
  | valued {start semi : Token} {ts : List Token} {value : Expr Unit} (hstart : start.kind = .kwReturn)
      (hvalue : Expression ts value) (hsemi : semi.kind = .semi) :
      Return (start :: ts ++ [semi]) (.ret (extent (start :: ts ++ [semi])) (some value))

/-- `stmt := declaration | if | loop | match [';'] | return | block | expr ';'`, where an expression that is a statement
    does not start with a match. -/
inductive Statement : List Token → Stmt Unit → Prop
  | decl {ts : List Token} {stmt : Stmt Unit} (hdecl : Declaration ts stmt) : Statement ts stmt
  | cond {ts : List Token} {chain : IfChain Unit} (hchain : Conditional ts chain) : Statement ts (.cond chain)
  | loop {ts : List Token} {stmt : Stmt Unit} (hloop : Loop ts stmt) : Statement ts stmt
  | select {ts : List Token} {m : Match Unit} (hmatch : Selection true ts m) : Statement ts (.select m)
  | selectEnded {ts : List Token} {semi : Token} {m : Match Unit} (hmatch : Selection true ts m)
      (hsemi : semi.kind = .semi) : Statement (ts ++ [semi]) (.select m)
  | ret {ts : List Token} {stmt : Stmt Unit} (hreturn : Return ts stmt) : Statement ts stmt
  | block {ts : List Token} {body : Block Unit} (hbody : Body ts body) : Statement ts (.block body)
  | expr {semi : Token} {ts : List Token} {value : Expr Unit} (hvalue : Expression ts value)
      (hstart : ∀ t ∈ ts.head?, t.kind ≠ .kwMatch) (hsemi : semi.kind = .semi) :
      Statement (ts ++ [semi]) (.expr (extent (ts ++ [semi])) value)

end

/-- `param := modes IDENT ':' type` -/
inductive Parameter : List Token → Param → Prop
  | mk {ts us : List Token} {name colon : Token} {modes : Modes} {label : TypeLabel} (hmodes : ModesPhrase ts modes)
      (hname : name.kind = .ident) (hcolon : colon.kind = .colon) (hlabel : TypePhrase us label) :
      Parameter (ts ++ name :: colon :: us) ⟨extent (ts ++ name :: colon :: us), modes, name.text, label⟩

/-- `IDENT` -/
inductive Name : List Token → String → Prop
  | mk {t : Token} (ht : t.kind = .ident) : Name [t] t.text

/-- `enum := 'enum' IDENT '{' IDENT {',' IDENT} [','] '}'` -/
inductive EnumDefinition : List Token → EnumDef → Prop
  | plain {start name left right : Token} {ts : List Token} {variants : List String} (hstart : start.kind = .kwEnum)
      (hname : name.kind = .ident) (hleft : left.kind = .lbrace) (hvariants : Separated Name ts variants)
      (hright : right.kind = .rbrace) : EnumDefinition (start :: name :: left :: ts ++ [right])
        ⟨extent (start :: name :: left :: ts ++ [right]), name.text, variants⟩
  | comma {start name left comma right : Token} {ts : List Token} {variants : List String}
      (hstart : start.kind = .kwEnum)
      (hname : name.kind = .ident) (hleft : left.kind = .lbrace) (hvariants : Separated Name ts variants)
      (hcomma : comma.kind = .comma) (hright : right.kind = .rbrace) :
      EnumDefinition (start :: name :: left :: ts ++ [comma, right])
        ⟨extent (start :: name :: left :: ts ++ [comma, right]), name.text, variants⟩

/-- `func := 'fn' IDENT '(' [param {',' param}] ')' ['->' type] block` -/
inductive FunctionDefinition : List Token → FuncDef Unit → Prop
  | plain {start name left right : Token} {ts us : List Token} {params : List Param} {body : Block Unit}
      (hstart : start.kind = .kwFn) (hname : name.kind = .ident) (hleft : left.kind = .lparen)
      (hparams : Listed Parameter ts params) (hright : right.kind = .rparen) (hbody : Body us body) :
      FunctionDefinition (start :: name :: left :: ts ++ [right] ++ us)
        ⟨extent (start :: name :: left :: ts ++ [right] ++ us), name.text, extent [name], params, none, body⟩
  | returning {start name left right arrow : Token} {ts us vs : List Token} {params : List Param} {result : TypeLabel}
      {body : Block Unit} (hstart : start.kind = .kwFn) (hname : name.kind = .ident) (hleft : left.kind = .lparen)
      (hparams : Listed Parameter ts params) (hright : right.kind = .rparen) (harrow : arrow.kind = .arrow)
      (hresult : TypePhrase vs result) (hbody : Body us body) :
      FunctionDefinition (start :: name :: left :: ts ++ [right] ++ (arrow :: vs) ++ us)
        ⟨extent (start :: name :: left :: ts ++ [right] ++ (arrow :: vs) ++ us), name.text, extent [name],
          params, some result,
          body⟩

/-- `def := enum | func` -/
inductive Definition : List Token → Def Unit → Prop
  | enum {ts : List Token} {e : EnumDef} (henum : EnumDefinition ts e) : Definition ts (.enum e)
  | func {ts : List Token} {f : FuncDef Unit} (hfunc : FunctionDefinition ts f) : Definition ts (.func f)

/-- `file := {def}` -/
inductive File : List Token → Program Unit → Prop
  | mk {ts : List Token} {defs : List (Def Unit)} (hdefs : Repeated Definition ts defs) : File ts ⟨defs⟩

/-- Whether phrases start with a token whose kind has the property `P`. -/
structure Starts {α : Type} (R : List Token → α → Prop) (P : TokenKind → Prop) : Prop where
  exists_cons : ∀ {ts a}, R ts a → ∃ t us, ts = t :: us ∧ P t.kind

namespace Starts

variable {α : Type} {R : List Token → α → Prop} {P P' : TokenKind → Prop}

theorem exists_append (hR : Starts R P) {ts : List Token} {a : α} (h : R ts a) (us : List Token) :
    ∃ t vs, ts ++ us = t :: vs ∧ P t.kind := by
  obtain ⟨t, vs, rfl, ht⟩ := hR.exists_cons h
  exact ⟨t, _, List.cons_append, ht⟩

theorem mono (hR : Starts R P) (h : ∀ kind, P kind → P' kind) : Starts R P' where
  exists_cons hphrase := by
    obtain ⟨t, us, heq, ht⟩ := hR.exists_cons hphrase
    exact ⟨t, us, heq, h _ ht⟩

theorem ne (hR : Starts R P) {kind : TokenKind} (h : ¬ P kind) : Starts R (· ≠ kind) :=
  hR.mono fun _ hstart heq => h (heq ▸ hstart)

theorem ne_nil (hR : Starts R P) {ts : List Token} {a : α} (h : R ts a) : ts ≠ [] := by
  obtain ⟨t, us, rfl, -⟩ := hR.exists_cons h
  exact List.cons_ne_nil t us

theorem length_pos (hR : Starts R P) {ts : List Token} {a : α} (h : R ts a) : 0 < ts.length :=
  List.length_pos_iff.2 (hR.ne_nil h)

theorem separated (hR : Starts R P) : Starts (Separated R) P where
  exists_cons h := by
    cases h with
    | one hitem => exact hR.exists_cons hitem
    | more hitem => exact hR.exists_append hitem _

end Starts

theorem Layered.starts {R : List Token → Expr Unit → Prop} {P : TokenKind → Prop} (hR : Starts R P) (k : Nat) :
    Starts (Layered R k) P where
  exists_cons h := by
    induction h with
    | operand hoperand => exact hR.exists_cons hoperand
    | lower _ ih => exact ih
    | binary _ _ _ ih _ =>
      obtain ⟨t, us, rfl, ht⟩ := ih
      exact ⟨t, _, List.cons_append, ht⟩

/-- The kinds of the tokens that atoms start with. -/
def startsAtom : TokenKind → Bool
  | .intLit | .floatLit | .kwTrue | .kwFalse | .ident | .lparen | .kwMatch => true
  | _ => false

/-- The kinds of the tokens that expressions start with. -/
def startsExpr (kind : TokenKind) : Bool :=
  startsAtom kind || kind == .minus

/-- The kinds of the tokens that patterns start with. -/
def startsPattern : TokenKind → Bool
  | .intLit | .floatLit | .kwTrue | .kwFalse | .ident | .minus => true
  | _ => false

theorem LiteralToken.starts {t : Token} {value : Literal} (h : LiteralToken t value) :
    startsAtom t.kind ∧ startsPattern t.kind := by
  cases h with
  | int ht | float ht | true ht | false ht => simp [ht, startsAtom, startsPattern]

theorem PatternPhrase.starts : Starts PatternPhrase (startsPattern ·) where
  exists_cons h := by
    cases h with
    | wildcard ht | bind ht => exact ⟨_, _, rfl, by simp [ht, startsPattern]⟩
    | literal hvalue => exact ⟨_, _, rfl, hvalue.starts.2⟩
    | negative hsign => exact ⟨_, _, rfl, by simp [hsign, startsPattern]⟩
    | variant henum | applied henum => exact ⟨_, _, rfl, by simp [henum, startsPattern]⟩

theorem Selection.starts (blocks : Bool) : Starts (Selection blocks) (· = .kwMatch) where
  exists_cons h := by
    cases h with
    | mk hstart => exact ⟨_, _, rfl, hstart⟩

theorem Atom.starts : Starts Atom (startsAtom ·) where
  exists_cons h := by
    cases h with
    | literal hvalue => exact ⟨_, _, rfl, hvalue.starts.1⟩
    | name ht => exact ⟨_, _, rfl, by simp [ht, startsAtom]⟩
    | variant henum => exact ⟨_, _, rfl, by simp [henum, startsAtom]⟩
    | paren hleft => exact ⟨_, _, rfl, by simp [hleft, startsAtom]⟩
    | select hmatch =>
      obtain ⟨t, us, rfl, ht⟩ := (Selection.starts false).exists_cons hmatch
      exact ⟨t, us, rfl, by simp [ht, startsAtom]⟩

theorem Primary.exists_cons : ∀ {ts : List Token} {e : Expr Unit}, Primary ts e → ∃ t us,
    ts = t :: us ∧ startsAtom t.kind
  | _, _, .atom hatom => Atom.starts.exists_cons hatom
  | _, _, .call hcallee _ _ _ => by
    obtain ⟨t, us, rfl, ht⟩ := hcallee.exists_cons
    exact ⟨t, _, List.cons_append, ht⟩

theorem Primary.starts : Starts Primary (startsAtom ·) where
  exists_cons := Primary.exists_cons

theorem Operand.starts : Starts Operand (startsExpr ·) where
  exists_cons h := by
    cases h with
    | primary hprimary =>
      obtain ⟨t, us, rfl, ht⟩ := hprimary.exists_cons
      exact ⟨t, us, rfl, by simp [startsExpr, ht]⟩
    | negativeNumber hsign | negation hsign => exact ⟨_, _, rfl, by simp [hsign, startsExpr]⟩

theorem Expression.starts : Starts Expression (startsExpr ·) where
  exists_cons h := by
    cases h with
    | operation hoperation => exact (Layered.starts Operand.starts _).exists_cons hoperation
    | assign htarget => exact (Layered.starts Operand.starts _).exists_append htarget _

theorem Body.starts : Starts Body (· = .lbrace) where
  exists_cons h := by
    cases h with
    | mk hleft => exact ⟨_, _, rfl, hleft⟩

theorem Case.starts (blocks : Bool) : Starts (Case blocks) (startsPattern ·) where
  exists_cons h := by
    cases h with
    | value hpattern | block hpattern => exact PatternPhrase.starts.exists_append hpattern _

theorem Declaration.starts : Starts Declaration (· = .kwLet) where
  exists_cons h := by
    cases h with
    | plain hstart | valued hstart => exact ⟨_, _, rfl, hstart⟩

theorem Loop.starts : Starts Loop (· = .kwWhile) where
  exists_cons h := by
    cases h with
    | mk hstart => exact ⟨_, _, rfl, hstart⟩

theorem Return.starts : Starts Return (· = .kwReturn) where
  exists_cons h := by
    cases h with
    | plain hstart | valued hstart => exact ⟨_, _, rfl, hstart⟩

theorem Conditional.starts : Starts Conditional (· = .kwIf) where
  exists_cons h := by
    cases h with
    | only hstart | orElse hstart | orIf hstart => exact ⟨_, _, rfl, hstart⟩

/-- The kinds of the tokens that statements start with. -/
def startsStmt : TokenKind → Bool
  | .kwLet | .kwIf | .kwWhile | .kwReturn | .lbrace => true
  | kind => startsExpr kind

theorem startsStmt_of_expr {kind : TokenKind} (h : startsExpr kind) : startsStmt kind := by
  cases kind <;> first | rfl | exact h

theorem Statement.starts : Starts Statement (startsStmt ·) where
  exists_cons h := by
    cases h with
    | decl hdecl =>
      obtain ⟨t, us, rfl, ht⟩ := Declaration.starts.exists_cons hdecl
      exact ⟨t, us, rfl, by simp [ht, startsStmt]⟩
    | loop hloop =>
      obtain ⟨t, us, rfl, ht⟩ := Loop.starts.exists_cons hloop
      exact ⟨t, us, rfl, by simp [ht, startsStmt]⟩
    | ret hreturn =>
      obtain ⟨t, us, rfl, ht⟩ := Return.starts.exists_cons hreturn
      exact ⟨t, us, rfl, by simp [ht, startsStmt]⟩
    | cond hchain =>
      obtain ⟨t, us, rfl, ht⟩ := Conditional.starts.exists_cons hchain
      exact ⟨t, us, rfl, by simp [ht, startsStmt]⟩
    | select hmatch =>
      obtain ⟨t, us, rfl, ht⟩ := (Selection.starts true).exists_cons hmatch
      exact ⟨t, us, rfl, by simp [ht, startsStmt, startsExpr, startsAtom]⟩
    | selectEnded hmatch =>
      obtain ⟨t, us, heq, ht⟩ := (Selection.starts true).exists_append hmatch _
      exact ⟨t, us, heq, by simp [ht, startsStmt, startsExpr, startsAtom]⟩
    | block hbody =>
      obtain ⟨t, us, rfl, ht⟩ := Body.starts.exists_cons hbody
      exact ⟨t, us, rfl, by simp [ht, startsStmt]⟩
    | expr hvalue =>
      obtain ⟨t, us, heq, ht⟩ := Expression.starts.exists_append hvalue _
      exact ⟨t, us, heq, startsStmt_of_expr ht⟩

/-- The kinds of the tokens that parameters start with. -/
def startsParam : TokenKind → Bool
  | .kwLocal | .kwGlobal | .kwUnique | .kwShared | .ident => true
  | _ => false

theorem Parameter.starts : Starts Parameter (startsParam ·) where
  exists_cons h := by
    obtain ⟨⟨hl, hu⟩, hname, -, -⟩ := h
    cases hl with
    | asLocal ht | asGlobal ht => exact ⟨_, _, rfl, by simp [ht, startsParam]⟩
    | unspecified =>
      cases hu with
      | unique ht | shared ht => exact ⟨_, _, rfl, by simp [ht, startsParam]⟩
      | unspecified => exact ⟨_, _, rfl, by simp [hname, startsParam]⟩

theorem Name.starts : Starts Name (· = .ident) where
  exists_cons h := by
    obtain ⟨ht⟩ := h
    exact ⟨_, _, rfl, ht⟩

theorem EnumDefinition.starts : Starts EnumDefinition (· = .kwEnum) where
  exists_cons h := by
    cases h with
    | plain hstart | comma hstart => exact ⟨_, _, rfl, hstart⟩

theorem FunctionDefinition.starts : Starts FunctionDefinition (· = .kwFn) where
  exists_cons h := by
    cases h with
    | plain hstart | returning hstart => exact ⟨_, _, rfl, hstart⟩

theorem Definition.starts : Starts Definition fun kind => kind = .kwEnum ∨ kind = .kwFn where
  exists_cons h := by
    cases h with
    | enum henum =>
      obtain ⟨t, us, rfl, ht⟩ := EnumDefinition.starts.exists_cons henum
      exact ⟨t, us, rfl, .inl ht⟩
    | func hfunc =>
      obtain ⟨t, us, rfl, ht⟩ := FunctionDefinition.starts.exists_cons hfunc
      exact ⟨t, us, rfl, .inr ht⟩

end Grammar

section Extent

variable {ts us : List Token}

/-- The extent of two phrases with a token between them. -/
theorem extent_through (hts : ts ≠ []) (hus : us ≠ []) (t : Token) :
    (extent ts).through (extent us) = extent (ts ++ t :: us) := by
  have hfirst : (ts ++ t :: us).head? = ts.head? := by
    rw [List.head?_append, List.head?_eq_some_head hts, Option.some_or]
  have hlast : (ts ++ t :: us).getLast? = us.getLast? := by
    rw [List.getLast?_append, List.getLast?_cons, List.getLast?_eq_some_getLast hus, Option.some_or, Option.getD_some]
  simp only [extent, Span.through, hfirst, hlast]

theorem start_extent_append (hts : ts ≠ []) (us : List Token) : (extent (ts ++ us)).start = (extent ts).start := by
  cases ts with
  | nil => exact absurd rfl hts
  | cons => rfl

end Extent

namespace Grammar

variable {ts : List Token} {e : Expr Unit}

theorem PatternPhrase.span_eq {p : Pattern} (h : PatternPhrase ts p) : p.span = extent ts := by
  cases h <;> rfl

theorem PatternPhrase.start_eq {p : Pattern} (h : PatternPhrase ts p) (us : List Token) :
    p.span.start = (extent (ts ++ us)).start := by
  rw [h.span_eq, start_extent_append (PatternPhrase.starts.ne_nil h)]

theorem Atom.span_eq (h : Atom ts e) : e.span = extent ts := by
  cases h with
  | select hmatch =>
    cases hmatch
    rfl
  | _ => rfl

theorem Primary.span_eq (h : Primary ts e) : e.span = extent ts := by
  cases h with
  | atom hatom => exact hatom.span_eq
  | call => rfl

theorem Primary.start_eq (h : Primary ts e) (us : List Token) : e.span.start = (extent (ts ++ us)).start := by
  rw [h.span_eq, start_extent_append (Operand.starts.ne_nil (.primary h))]

theorem Operand.span_eq (h : Operand ts e) : e.span = extent ts := by
  cases h with
  | primary hprimary => exact hprimary.span_eq
  | _ => rfl

theorem Layered.mono {R : List Token → Expr Unit → Prop} {j k : Nat} (h : Layered R j ts e) (hjk : j ≤ k) :
    Layered R k ts e := by
  induction hjk with
  | refl => exact h
  | step _ ih => exact .lower ih

theorem Layered.span_eq {k : Nat} (h : Layered Operand k ts e) : e.span = extent ts := by
  induction h with
  | operand hoperand => exact hoperand.span_eq
  | lower _ ih => exact ih
  | binary => rfl

theorem Expression.span_eq (h : Expression ts e) : e.span = extent ts := by
  cases h with
  | operation hoperation => exact hoperation.span_eq
  | assign => rfl

theorem Expression.start_eq (h : Expression ts e) (us : List Token) : e.span.start = (extent (ts ++ us)).start := by
  rw [h.span_eq, start_extent_append (Expression.starts.ne_nil h)]

end Grammar

end LocLang
