import LocLang.Proofs.Analysis.Honest
import LocLang.Proofs.Analysis.Checked
import LocLang.Tree.Matches

namespace LocLang

open Stmt

variable {issue : Issue} {s : Scopes Symbol}

theorem Pattern.sameOutside_scopes (hopen : s.inner ≠ []) (type : Ty) (enumName : Option String) (p : Pattern) :
    s.SameOutside (p.scopes type enumName s) := by
  cases p with
  | bind => exact Scopes.sameOutside_declare hopen _ _
  | wildcard | literal | variant => exact .refl hopen

theorem Stmt.sameOutside_scopes {μ : Type} (hopen : s.inner ≠ []) (enums : EnumTable) (stmt : Stmt μ) :
    s.SameOutside (stmt.scopes enums s) := by
  cases stmt with
  | decl => exact Scopes.sameOutside_declare hopen _ _
  | _ => exact .refl hopen

theorem Stmt.sameOutside_listScopes {μ : Type} (hopen : s.inner ≠ []) (enums : EnumTable) (stmts : List (Stmt μ)) :
    s.SameOutside (listScopes enums s stmts) := by
  induction stmts generalizing s with
  | nil => exact .refl hopen
  | cons stmt _ ih =>
    have hstmt := stmt.sameOutside_scopes hopen enums
    exact hstmt.trans (ih hstmt.open_right)

theorem Expr.enumName?_map {μ ν : Type} (f : μ → ν) : ∀ e : Expr μ, (e.map f).enumName? s = e.enumName? s
  | .literal _ _ | .ident _ _ | .variant _ _ _ | .binary _ _ _ _ | .select _ => rfl
  | .assign _ target _ => enumName?_map f target
  | .call _ callee _ => by
    cases callee <;> rfl
  | .paren _ inner => enumName?_map f inner

section Decl

variable {μ ν : Type} {span nameSpan : Span} {modes : Modes} {name : String} {label : TypeLabel}
  {init : Option (Expr μ)}

theorem Stmt.map_decl (f : μ → ν) : (decl span modes name nameSpan label init).map f =
    .decl span modes name nameSpan label (init.map (Expr.map f)) := by
  cases init <;> rfl

theorem Stmt.matches_decl : (decl span modes name nameSpan label init).matches = init.elim [] Expr.matches := by
  cases init <;> rfl

end Decl

theorem Stmt.scopes_map {μ ν : Type} (f : μ → ν) {enums : EnumTable} (stmt : Stmt μ) :
    (stmt.map f).scopes enums s = stmt.scopes enums s := by
  cases stmt with
  | decl _ _ _ _ _ init => cases init <;> rfl
  | ret _ value => cases value <;> rfl
  | _ => rfl

namespace EnumTable

variable {enums : EnumTable} {enumName variant : String}

theorem isFatal_of_variantIssue? (h : enums.variantIssue? enumName variant = some issue) : issue.IsFatal := by
  rw [variantIssue?] at h
  split at h
  · cases h
    rfl
  · split at h <;> cases h
    rfl

theorem has_of_variantIssue? (h : enums.variantIssue? enumName variant = none) : enums.Has enumName variant := by
  rw [variantIssue?] at h
  split at h
  · cases h
  · rename_i e he
    split at h
    · rename_i hsome
      obtain ⟨n, hn⟩ := Option.isSome_iff_exists.1 hsome
      exact ⟨n, by rw [discriminant?, he, Option.bind_some, hn]⟩
    · cases h

end EnumTable

/-- Whether every one of the matches is on record with its type. -/
def Log.Records (log : Log) (ms : List (Match Ty)) : Prop :=
  ∀ m ∈ ms, (m.span, m.note) ∈ log.matchTypes

theorem Log.Records.nil (log : Log) : log.Records [] := by
  simp [Records]

theorem Log.Records.mono {log log' : Log} {ms : List (Match Ty)} (h : log.Records ms) (hextends : log.Extends log') :
    log'.Records ms :=
  fun m hm => hextends.matchTypes.subset (h m hm)

namespace Walk

variable {α β : Type} {symbol : Symbol}

/-- What is known of the state of a walk: its scopes, matches that are on record, and a fact about what was walked
    before. -/
structure State.At (t : Scopes Symbol) (l : List (Match Ty)) (F : Prop) (s : State) : Prop where
  scopes : s.scopes = t
  records : s.log.Records l
  fact : F

open State (At)

/-- Whether a walk that starts with `P` and leaves no error in the log comes to `Q`. -/
structure Accepts (P : State → Prop) (x : Walk α) (Q : α → State → Prop) : Prop where
  steps : Steps x
  gives : ∀ {s : State} {a : α} {s' : State}, x.Gives s a s' → P s → s'.log.Clean → Q a s'

section Steps

variable {s s' : State} {u : Unit}

theorem finds_of_lookup {name : String} {span : Span} (h : (lookup name span).Gives s symbol s') :
    s.scopes.Finds name symbol ∧ s' = s := by
  rw [lookup] at h
  rw [gives_bind] at h
  obtain ⟨table, s1, htable, h⟩ := h
  obtain ⟨rfl, rfl⟩ := gives_scopes.1 htable
  split at h
  · rename_i entry hentry
    obtain ⟨rfl, rfl⟩ := gives_pure.1 h
    exact ⟨⟨entry, hentry, rfl⟩, rfl⟩
  · exact absurd h gives_giveUp

theorem of_define {span : Span} (h : (define symbol span).Gives s u s') : s'.scopes = s.scopes.define symbol span ∧
      s'.log.symbols = s.log.symbols ++ [{ symbol with depth := s.scopes.depth, span := some span }] := by
  rw [define] at h
  rw [gives_bind] at h
  obtain ⟨table, s1, htable, h⟩ := h
  obtain ⟨rfl, rfl⟩ := gives_scopes.1 htable
  split at h
  · rw [gives_bind] at h
    obtain ⟨_, s2, hreport, h⟩ := h
    obtain rfl := gives_report.1 hreport
    obtain ⟨-, rfl⟩ := (gives_of_run_eq rfl).1 h
    exact ⟨rfl, rfl⟩
  · obtain ⟨-, rfl⟩ := (gives_of_run_eq rfl).1 h
    exact ⟨rfl, rfl⟩

end Steps

theorem isFatal_of_patternIssue? {type : Ty} {value : Literal} (h : value.patternIssue? type = some issue) :
    issue.IsFatal := by
  rw [Literal.patternIssue?] at h
  split at h
  · cases h
  · split at h <;> cases h <;> rfl

theorem isFatal_of_assignIssue? (h : assignIssue? symbol = some issue) : issue.IsFatal := by
  rw [assignIssue?] at h
  split at h
  · cases h
  · split at h <;> cases h <;> rfl

theorem assignable_of_assignIssue? (h : assignIssue? symbol = none) : symbol.assignable := by
  rw [assignIssue?] at h
  split at h
  · assumption
  · split at h <;> cases h

namespace Accepts

variable {P : State → Prop} {Q : α → State → Prop} {R : β → State → Prop} {x : Walk α} {t : Scopes Symbol}
  {l l' : List (Match Ty)}
  {F : Prop} {span : Span} {F' : α → Prop}

/-- A walk of which nothing is known but its state. -/
theorem of_gives {s s' : State} {a : α} (h : Accepts (At s.scopes [] True) x Q) (hgives : x.Gives s a s')
    (hclean : s'.log.Clean) : Q a s' :=
  h.gives hgives ⟨rfl, .nil _, trivial⟩ hclean

theorem bind {f : α → Walk β} (hx : Accepts P x Q) (hf : ∀ a, Accepts (Q a) (f a) R) : Accepts P (x >>= f) R where
  steps := hx.steps.bind fun a => (hf a).steps
  gives h hs hclean := by
    obtain ⟨a, s1, hfirst, hrest⟩ := gives_bind.1 h
    have hextends := (hf a).steps.honest.extends_of_gives hrest
    exact (hf a).gives hrest (hx.gives hfirst hs (hextends.clean hclean)) hclean

theorem result {g : α → β} {Q : β → Prop} {t' : α → Scopes Symbol} {l' : α → List (Match Ty)}
    (hx : Accepts P x fun a => At (t' a) (l' a) (F' a)) (h : ∀ a, F' a → Q (g a)) :
    Accepts P (do return g (← x)) fun b _ => Q b :=
  hx.bind fun a => ⟨.pure _, fun hgives hs _ => (gives_pure.1 hgives).1 ▸ h a hs.fact⟩

theorem mono {Q' : α → State → Prop} (h : Accepts P x Q) (hq : ∀ a s, Q a s → Q' a s) : Accepts P x Q' :=
  ⟨h.steps, fun hgives hs hclean => hq _ _ (h.gives hgives hs hclean)⟩

theorem pure {a : α} {l' : α → List (Match Ty)} (h : F → F' a ∧ l' a ⊆ l) :
    Accepts (At t l F) (pure a) fun a => At t (l' a) (F' a) where
  steps := .pure a
  gives hgives hs _ := by
    obtain ⟨rfl, rfl⟩ := gives_pure.1 hgives
    obtain ⟨hfact, hsubset⟩ := h hs.fact
    exact ⟨hs.scopes, fun m hm => hs.records m (hsubset hm), hfact⟩

theorem note (hplain : issue.plain = true) (span : Span) :
    Accepts (At t l F) (report issue span) fun _ => At t l F where
  steps := .report hplain span
  gives h hs _ := by
    obtain rfl := gives_report.1 h
    exact ⟨hs.scopes, hs.records, hs.fact⟩

theorem reportGap (gap : Gap) (span : Span) : Accepts (At t l F) (reportGap gap span) fun _ => At t l F where
  steps := .reportGap gap span
  gives h hs _ := by
    obtain rfl := gives_reportGap.1 h
    exact ⟨hs.scopes, hs.records, hs.fact⟩

theorem report (hplain : issue.plain = true) (hfatal : issue.IsFatal) (span : Span) {Q : Unit → State → Prop} :
    Accepts P (report issue span) Q where
  steps := .report hplain span
  gives h _ hclean := by
    obtain rfl := gives_report.1 h
    exact absurd hfatal hclean.not_isFatal_of_addFinding

/-- Nothing is accepted after an error. -/
theorem fails (hplain : issue.plain = true) (hfatal : issue.IsFatal) (span : Span) {f : Unit → Walk α}
    (hf : ∀ u, Steps (f u)) : Accepts P (do f (← Walk.report issue span)) Q :=
  (report hplain hfatal span (Q := fun _ _ => False)).bind fun u => ⟨hf u, fun _ hfalse _ => hfalse.elim⟩

theorem giveUp (habort : issue.aborts = true) (span : Span) : Accepts P (giveUp issue span : Walk α) Q where
  steps := .giveUp habort span
  gives h := absurd h gives_giveUp

theorem tell (event : Event) : Accepts (At t l F) (tell event) fun _ => At t l F where
  steps := .tell event
  gives h hs _ := by
    obtain rfl := gives_tell.1 h
    exact ⟨hs.scopes, hs.records, hs.fact⟩

theorem recordMatch (m : Match Ty) : Accepts (At t l F) (recordMatch m.span m.note) fun _ => At t (m :: l) F where
  steps := .recordMatch _ _
  gives h hs _ := by
    obtain rfl := gives_recordMatch.1 h
    refine ⟨hs.scopes, fun n hn => ?_, hs.fact⟩
    rcases List.mem_cons.1 hn with rfl | hn
    · exact List.mem_append_right _ (List.mem_singleton.2 rfl)
    · exact List.mem_append_left _ (hs.records n hn)

theorem scopes : Accepts (At t l F) scopes fun table => At t l (F ∧ table = t) where
  steps := .scopes
  gives h hs _ := by
    obtain ⟨rfl, rfl⟩ := gives_scopes.1 h
    exact ⟨hs.scopes, hs.records, hs.fact, hs.scopes⟩

/-- What is walked in a scope of its own leaves the scopes as they were if it keeps to the innermost one. -/
theorem inScope {deferred : Bool} {t' : Scopes Symbol} {l' : α → List (Match Ty)}
    (hx : Accepts (At t.push l F) x fun a => At t' (l' a) (F' a)) (hsame : t.push.SameOutside t') :
    Accepts (At t l F) (inScope deferred x) fun a => At t (l' a) (F' a) where
  steps := .inScope _ hx.steps
  gives h hs hclean := by
    obtain ⟨s1, hbody, rfl⟩ := gives_inScope.1 h
    have h1 := hx.gives hbody ⟨congrArg Scopes.push hs.scopes, hs.records, hs.fact⟩ hclean
    exact ⟨by rw [h1.scopes, hsame.pop_eq_of_push], h1.records, h1.fact⟩

theorem ite {c : Prop} [Decidable c] {y : Walk α} (hx : c → Accepts P x Q) (hy : ¬c → Accepts P y Q) :
    Accepts P (if c then x else y) Q := by
  split
  · next hc => exact hx hc
  · next hc => exact hy hc

theorem lookup (name : String) (span : Span) :
    Accepts (At t l F) (lookup name span) fun symbol => At t l (F ∧ t.Finds name symbol) where
  steps := .lookup name span
  gives h hs _ := by
    obtain ⟨hfinds, rfl⟩ := finds_of_lookup h
    exact ⟨hs.scopes, hs.records, hs.fact, hs.scopes ▸ hfinds⟩

theorem reportIf {issue : Option Issue} (hplain : ∀ i, issue = some i → i.plain = true)
    (hfatal : ∀ i, issue = some i → i.IsFatal) (span : Span) :
    Accepts (At t l F) (reportIf issue span) fun _ => At t l (F ∧ issue = none) where
  steps := .reportIf hplain span
  gives h hs hclean := by
    cases issue with
    | none =>
      obtain ⟨-, rfl⟩ := gives_pure.1 h
      exact ⟨hs.scopes, hs.records, hs.fact, rfl⟩
    | some issue =>
      obtain rfl := gives_report.1 h
      exact absurd (hfatal issue rfl) hclean.not_isFatal_of_addFinding

theorem define (symbol : Symbol) (span : Span) :
    Accepts (At t l F) (define symbol span) fun _ => At (t.define symbol span) l F where
  steps := .define symbol span
  gives h hs _ :=
    ⟨by rw [(of_define h).1, hs.scopes], hs.records.mono ((Steps.define symbol span).honest.extends_of_gives h),
      hs.fact⟩

theorem resolveType (enums : EnumTable) (label : TypeLabel) :
    Accepts (At t l F) (resolveType enums (some label)) fun resolved =>
      At t l (F ∧ resolved = enums.labelType (some label) ∧ resolved.1 ≠ .unknown) := by
  rw [Walk.resolveType]
  split
  · next finding hfinding =>
    refine fails (plain_of_labelFinding? hfinding) ?_ _ fun _ => .pure _
    simp only [EnumTable.labelFinding?] at hfinding
    split at hfinding
    · split at hfinding <;> cases hfinding <;> rfl
    · cases hfinding
  · next hfinding =>
    refine pure fun hF => ⟨⟨hF, rfl, fun hunknown => ?_⟩, List.Subset.refl _⟩
    rw [EnumTable.labelFinding?, if_pos hunknown] at hfinding
    split at hfinding <;> cases hfinding

theorem literal (expected : Ty) (span : Span) (value : Literal) :
    Accepts (At t l F) (literal expected span value) fun type =>
      At t l (F ∧ value.Fits expected ∧ type = value.typeFor expected) := by
  cases value with
  | int =>
    refine ite (fun hadopts => pure fun hF => ⟨⟨hF, fun hint => ?_, ?_⟩, List.Subset.refl _⟩) fun hadopts =>
      ite (fun _ => fails rfl (by rfl) _ fun _ => .pure _) fun hfits =>
        pure fun hF => ⟨⟨hF, fun hint => ?_, ?_⟩, List.Subset.refl _⟩
    · simp [hint, Ty.isFloating] at hadopts
    · rw [Literal.typeFor, if_pos hadopts]
    · simpa [hint] using hfits
    · rw [Literal.typeFor, if_neg hadopts]
  | float value | bool value => exact pure fun hF => ⟨⟨hF, trivial, rfl⟩, List.Subset.refl _⟩

theorem pattern (enums : EnumTable) (type : Ty) (enumName : Option String) (p : Pattern) :
    Accepts (At t l F) (pattern enums type enumName p) fun _ =>
      At (p.scopes type enumName t) l (F ∧ p.Checked enums type) := by
  cases p with
  | wildcard => exact pure fun hF => ⟨⟨hF, trivial⟩, List.Subset.refl _⟩
  | literal =>
    rw [Walk.pattern]
    split
    · next issue hissue => exact report (plain_of_patternIssue? hissue) (isFatal_of_patternIssue? hissue) _
    · next hissue => exact pure fun hF => ⟨⟨hF, hissue⟩, List.Subset.refl _⟩
  | bind => exact (define _ _).mono fun _ _ hs => ⟨hs.scopes, hs.records, hs.fact, trivial⟩
  | variant span name variant args =>
    rw [Walk.pattern]
    split
    · next issue hissue => exact report (plain_of_variantIssue? hissue) (EnumTable.isFatal_of_variantIssue? hissue) _
    · next hissue =>
      have hcount : Accepts (At t l F)
          (if 0 < (args.getD []).length then Walk.report (.patternArity name variant (args.getD []).length) span
            else Pure.pure ())
          fun _ => At t l (F ∧ (Pattern.variant span name variant args).Checked enums type) := by
        refine ite (fun _ => report rfl (by rfl) _) fun hnone => pure fun hF => ⟨⟨hF, ?_, ?_⟩, List.Subset.refl _⟩
        · exact EnumTable.has_of_variantIssue? hissue
        · exact List.length_eq_zero_iff.1 (by omega)
      split
      · exact ite (fun _ => (note rfl _).bind fun _ => hcount) fun _ => hcount
      · exact hcount

end Accepts

section Trees

variable (env : Env)

mutual

theorem expr_accepts (expected : Ty) {t : Scopes Symbol} {l : List (Match Ty)} {F : Prop} : ∀ e : Expr Unit,
    Accepts (At t l F) (expr env expected e) fun r =>
      At t (l ++ r.2.matches) (F ∧ r.2.Checked env t expected r.1 ∧ (r.2.map fun _ => ()) = e)
  | .literal _ _ => by
    rw [expr]
    exact (Accepts.literal _ _ _).bind fun _ => .pure fun ⟨hF, hvalue⟩ => ⟨⟨hF, hvalue, rfl⟩, by simp [Expr.matches]⟩
  | .ident _ _ => by
    rw [expr]
    refine (Accepts.lookup _ _).bind fun symbol => .ite (fun _ => .fails rfl (by rfl) _ fun _ => .pure _) fun hkind =>
      .pure fun ⟨hF, hfinds⟩ => ⟨⟨hF, ⟨symbol, hfinds, ?_, rfl⟩, rfl⟩, by simp [Expr.matches]⟩
    cases hk : symbol.kind with
    | value => rfl
    | function => exact absurd hk hkind
  | .variant _ _ _ => by
    rw [expr]
    exact (Accepts.reportIf (fun _ => plain_of_variantIssue?) (fun _ => EnumTable.isFatal_of_variantIssue?) _).bind
      fun _ =>
      .pure fun ⟨hF, hnone⟩ => ⟨⟨hF, ⟨EnumTable.has_of_variantIssue? hnone, rfl⟩, rfl⟩, by simp [Expr.matches]⟩
  | .binary _ _ lhs rhs => by
    rw [expr]
    refine (expr_accepts _ lhs).bind fun left => (expr_accepts _ rhs).bind fun right =>
      .pure fun ⟨⟨hF, hlhs, hlhs'⟩, hrhs, hrhs'⟩ =>
        ⟨⟨hF, ⟨left.1, right.1, hlhs, hrhs, rfl⟩, ?_⟩, by simp [Expr.matches]⟩
    rw [Expr.map, hlhs', hrhs']
  | .assign _ target rhs => by
    cases target with
    | ident =>
      rw [expr]
      refine (Accepts.lookup _ _).bind fun symbol => (Accepts.reportIf (fun _ => plain_of_assignIssue?)
        (fun _ => isFatal_of_assignIssue?) _).bind fun _ => (expr_accepts _ rhs).bind fun value =>
          .pure fun ⟨⟨⟨hF, hfinds⟩, hnone⟩, hvalue, hvalue'⟩ => ⟨⟨hF, ?_, ?_⟩, by simp [Expr.matches]⟩
      · exact ⟨symbol, value.1, hfinds, assignable_of_assignIssue? hnone, hvalue, rfl⟩
      · rw [Expr.map, Expr.map, hvalue']
    | _ =>
      simp only [expr]
      exact .fails rfl (by rfl) _ fun _ => (expr_accepts _ rhs (t := t) (l := l) (F := F)).steps.bind fun _ => .pure _
  | .call _ callee args => by
    cases callee with
    | ident _ name =>
      rw [expr]
      refine (Accepts.lookup _ _).bind fun symbol => .ite (fun hkind => ?_) fun _ => .giveUp rfl _
      have hargs := arguments_accepts symbol.params (t := t) (l := l) (F := F ∧ t.Finds name symbol) args
      refine .ite (fun _ => .fails rfl (by rfl) _ fun _ => hargs.steps.bind fun _ => .pure _) fun harity =>
        hargs.bind fun args' => .pure fun ⟨⟨hF, hfinds⟩, hchecked, hlength, herase⟩ =>
          ⟨⟨hF, ?_, ?_⟩, by simp [Expr.matches]⟩
      · exact ⟨symbol, hfinds, hkind, hlength.trans (Decidable.not_not.1 harity), hchecked, rfl⟩
      · rw [Expr.map, Expr.map, herase]
    | _ =>
      simp only [expr]
      exact .fails rfl (by rfl) _ fun _ => (arguments_accepts _ args (t := t) (l := l) (F := F)).steps.bind fun _ =>
        .pure _
  | .paren _ inner => by
    rw [expr]
    exact (expr_accepts _ inner).bind fun _ => .pure fun ⟨hF, hinner, herase⟩ =>
      ⟨⟨hF, hinner, by rw [Expr.map, herase]⟩, by simp [Expr.matches]⟩
  | .select m => by
    rw [expr]
    exact (selection_accepts _ m).bind fun _ => .pure fun ⟨hF, hm, herase⟩ =>
      ⟨⟨hF, hm, by rw [Expr.map, herase]⟩, by simp [Expr.matches]⟩

theorem arguments_accepts (params : List Ty) {t : Scopes Symbol} {l : List (Match Ty)} {F : Prop} :
    ∀ args : List (Expr Unit), Accepts (At t l F) (arguments env params args) fun args' =>
      At t (l ++ Expr.listMatches args') (F ∧ Expr.CheckedList env t params args' ∧ args'.length = args.length ∧
        Expr.mapList (fun _ => ()) args' = args)
  | [] => by
    rw [arguments]
    exact .pure fun hF => ⟨⟨hF, trivial, rfl, rfl⟩, by simp [Expr.listMatches]⟩
  | arg :: args => by
    rw [arguments]
    refine (expr_accepts _ arg).bind fun first => (arguments_accepts _ args).bind fun rest =>
      .pure fun ⟨⟨hF, harg, herase⟩, hargs, hlength, herases⟩ => ⟨⟨hF, ⟨⟨first.1, harg⟩, hargs⟩, ?_, ?_⟩, ?_⟩
    · rw [List.length_cons, List.length_cons, hlength]
    · rw [Expr.mapList, herase, herases]
    · simp [Expr.listMatches]

theorem selection_accepts (expected : Ty) {t : Scopes Symbol} {l : List (Match Ty)} {F : Prop} : ∀ m : Match Unit,
    Accepts (At t l F) (selection env expected m) fun r =>
      At t (l ++ r.2.matches) (F ∧ r.2.Checked env t expected r.1 ∧ (r.2.map fun _ => ()) = m)
  | .mk span _ scrutinee arms => by
    rw [selection]
    refine (expr_accepts _ scrutinee).bind fun first => Accepts.scopes.bind fun table =>
      (armList_accepts _ _ _ _ arms).bind fun joined => ?_
    -- Whether the match is exhaustive does not matter here: either way its type goes on record.
    dsimp only
    split
    case' h_1 => refine (Accepts.reportGap _ _).bind fun _ => ?_
    all_goals
      refine (Accepts.recordMatch (.mk span (if expected = .unknown then joined.1 else expected) first.2 joined.2)).bind
        fun _ => .pure ?_
      rintro ⟨⟨⟨hF, hfirst, herase⟩, rfl⟩, harms, herases⟩
      refine ⟨⟨hF, ⟨first.1, joined.1, hfirst, ?_, rfl, rfl⟩, ?_⟩, by simp [Match.matches]⟩
      · rw [← Expr.enumName?_map (fun _ => ()) first.2, herase]
        exact harms
      · rw [Match.map, herase, herases]

theorem armList_accepts (expected type : Ty) (enumName : Option String) (sofar : Ty) {t : Scopes Symbol}
    {l : List (Match Ty)} {F : Prop} : ∀ arms : List (Arm Unit),
    Accepts (At t l F) (armList env expected type enumName sofar arms) fun r =>
      At t (l ++ Arm.listMatches r.2) (F ∧ Arm.CheckedList env t expected type enumName sofar r.1 r.2 ∧
        Arm.mapList (fun _ => ()) r.2 = arms)
  | [] => by
    rw [armList]
    exact .pure fun hF => ⟨⟨hF, rfl, rfl⟩, by simp [Arm.listMatches]⟩
  | arm :: arms => by
    rw [armList]
    have hsame := arm.pattern.sameOutside_scopes t.push_inner_ne_nil type enumName
    refine (((Accepts.pattern _ _ _ _).bind fun _ => armBody_accepts _ _ arm).inScope hsame).bind fun first =>
      (armList_accepts _ _ _ _ arms).bind fun rest => .pure ?_
    rintro ⟨⟨⟨hF, hpattern⟩, hbody, herase, heq⟩, harms, herases⟩
    refine ⟨⟨hF, ⟨first.1, heq ▸ hpattern, heq ▸ hbody, harms⟩, ?_⟩, by simp [Arm.listMatches]⟩
    rw [Arm.mapList, herase, herases]

theorem armBody_accepts (expected sofar : Ty) {t : Scopes Symbol} {l : List (Match Ty)} {F : Prop} :
    ∀ arm : Arm Unit, Accepts (At t l F) (armBody env expected sofar arm) fun r =>
      At t (l ++ r.2.matches) (F ∧ r.2.Checked env t expected sofar r.1 ∧ (r.2.map fun _ => ()) = arm ∧
        r.2.pattern = arm.pattern)
  | .block _ _ body => by
    rw [armBody]
    exact (block_accepts body).bind fun _ => .pure fun ⟨hF, hbody, herase⟩ =>
      ⟨⟨hF, ⟨hbody, rfl⟩, by rw [Arm.map, herase], rfl⟩, by simp [Arm.matches]⟩
  | .value _ _ value => by
    rw [armBody]
    exact (expr_accepts _ value).bind fun r => .pure fun ⟨hF, hvalue, herase⟩ =>
      ⟨⟨hF, ⟨r.1, hvalue, rfl⟩, by rw [Arm.map, herase], rfl⟩, by simp [Arm.matches]⟩

theorem block_accepts {t : Scopes Symbol} {l : List (Match Ty)} {F : Prop} : ∀ b : Block Unit,
    Accepts (At t l F) (block env b) fun b' => At t (l ++ b'.matches) (F ∧ b'.Checked env t ∧ (b'.map fun _ => ()) = b)
  | .mk _ stmts => by
    rw [block]
    have hsame := sameOutside_listScopes t.push_inner_ne_nil env.enums stmts
    exact ((stmtList_accepts stmts).inScope hsame).bind fun _ => .pure fun ⟨hF, hstmts, herase⟩ =>
      ⟨⟨hF, hstmts, by rw [Block.map, herase]⟩, by simp [Block.matches]⟩

theorem stmtList_accepts {t : Scopes Symbol} {l : List (Match Ty)} {F : Prop} : ∀ stmts : List (Stmt Unit),
    Accepts (At t l F) (stmtList env stmts) fun stmts' => At (listScopes env.enums t stmts)
      (l ++ listMatches stmts') (F ∧ CheckedList env t stmts' ∧ mapList (fun _ => ()) stmts' = stmts)
  | [] => by
    rw [stmtList]
    exact .pure fun hF => ⟨⟨hF, trivial, rfl⟩, by simp [listMatches]⟩
  | stmt :: stmts => by
    rw [stmtList]
    refine (statement_accepts stmt).bind fun first => (stmtList_accepts stmts).bind fun rest => .pure ?_
    rintro ⟨⟨hF, hstmt, herase⟩, hstmts, herases⟩
    refine ⟨⟨hF, ⟨hstmt, ?_⟩, by rw [mapList, herase, herases]⟩, by simp [listMatches]⟩
    rw [← scopes_map (fun _ => ()) first, herase]
    exact hstmts

theorem chain_accepts {t : Scopes Symbol} {l : List (Match Ty)} {F : Prop} : ∀ c : IfChain Unit,
    Accepts (At t l F) (chain env c) fun c' => At t (l ++ c'.matches) (F ∧ c'.Checked env t ∧ (c'.map fun _ => ()) = c)
  | .only _ condition body => by
    rw [chain]
    exact (expr_accepts _ condition).bind fun r => (block_accepts body).bind fun _ => .pure
      fun ⟨⟨hF, hcondition, herase⟩, hbody, herase'⟩ =>
        ⟨⟨hF, ⟨⟨r.1, hcondition⟩, hbody⟩, by rw [IfChain.map, herase, herase']⟩, by simp [IfChain.matches]⟩
  | .orElse _ condition body other => by
    rw [chain]
    exact (expr_accepts _ condition).bind fun r => (block_accepts body).bind fun _ =>
        (block_accepts other).bind fun _ => .pure fun ⟨⟨⟨hF, hcondition, herase⟩, hbody, herase'⟩, hother, herase''⟩ =>
          ⟨⟨hF, ⟨⟨r.1, hcondition⟩, hbody,
            hother⟩, by rw [IfChain.map, herase, herase', herase'']⟩, by simp [IfChain.matches]⟩
  | .orIf _ condition body next => by
    rw [chain]
    exact (expr_accepts _ condition).bind fun r => (block_accepts body).bind fun _ => (chain_accepts next).bind fun _ =>
        .pure fun ⟨⟨⟨hF, hcondition, herase⟩, hbody, herase'⟩, hnext, herase''⟩ =>
          ⟨⟨hF, ⟨⟨r.1, hcondition⟩, hbody,
            hnext⟩, by rw [IfChain.map, herase, herase', herase'']⟩, by simp [IfChain.matches]⟩

theorem statement_accepts {t : Scopes Symbol} {l : List (Match Ty)} {F : Prop} : ∀ stmt : Stmt Unit,
    Accepts (At t l F) (statement env stmt) fun stmt' => At (stmt.scopes env.enums t) (l ++ stmt'.matches)
      (F ∧ stmt'.Checked env t ∧ (stmt'.map fun _ => ()) = stmt)
  | .block body => by
    rw [statement]
    exact (block_accepts body).bind fun _ => .pure fun ⟨hF, hbody, herase⟩ =>
      ⟨⟨hF, hbody, by rw [Stmt.map, herase]⟩, by simp [Stmt.matches]⟩
  | .decl _ _ _ _ _ init => by
    rw [statement]
    refine (Accepts.resolveType _ _).bind fun resolved => ?_
    refine .ite (fun hvoid => .fails rfl (by rfl) _ fun _ => ?_) fun hvoid => ?_
    · exact (initializer_accepts _ init (t := t) (l := l) (F := F)).steps.bind fun _ => (Steps.define _ _).bind fun _ =>
        (Steps.tell _).bind fun _ => .pure _
    · refine (initializer_accepts _ init).bind fun init' => (Accepts.define _ _).bind fun _ =>
        (Accepts.tell _).bind fun _ => ⟨.pure _, fun hgives hs _ => ?_⟩
      obtain ⟨rfl, rfl⟩ := gives_pure.1 hgives
      obtain ⟨⟨hF, rfl, hunknown⟩, hinit, herase⟩ := hs.fact
      rw [if_neg hvoid] at hinit
      refine ⟨?_, ?_, hF, ⟨hunknown, hvoid, hinit⟩, by rw [map_decl, herase]⟩
      · rw [hs.scopes, if_neg hvoid]
        rfl
      · rw [matches_decl]
        exact hs.records
  | .cond c => by
    rw [statement]
    exact (chain_accepts c).bind fun _ => .pure fun ⟨hF, hc, herase⟩ =>
      ⟨⟨hF, hc, by rw [Stmt.map, herase]⟩, by simp [Stmt.matches]⟩
  | .loop _ condition body => by
    rw [statement]
    exact (expr_accepts _ condition).bind fun r => (block_accepts body).bind fun _ => .pure
      fun ⟨⟨hF, hcondition, herase⟩, hbody, herase'⟩ =>
        ⟨⟨hF, ⟨⟨r.1, hcondition⟩, hbody⟩, by rw [Stmt.map, herase, herase']⟩, by simp [Stmt.matches]⟩
  | .select m => by
    rw [statement]
    exact (selection_accepts _ m).bind fun r => .pure fun ⟨hF, hm, herase⟩ =>
      ⟨⟨hF, ⟨r.1, hm⟩, by rw [Stmt.map, herase]⟩, by simp [Stmt.matches]⟩
  | .ret _ none => by
    rw [statement]
    refine .ite (fun _ => .fails rfl (by rfl) _ fun _ => .pure _) fun hresult =>
      .pure fun hF => ⟨⟨hF, ?_, rfl⟩, by simp [Stmt.matches]⟩
    simpa [Checked] using hresult
  | .ret _ (some value) => by
    rw [statement]
    refine .ite (fun _ => .fails rfl (by rfl) _ fun _ => ?_) fun hresult => ?_
    · exact (expr_accepts _ value (t := t) (l := l) (F := F)).steps.bind fun _ => .pure _
    · rw [if_neg hresult]
      exact (expr_accepts _ value).bind fun r => .pure fun ⟨hF, hvalue, herase⟩ =>
        ⟨⟨hF, ⟨hresult, r.1, hvalue⟩, by rw [Stmt.map, herase]⟩, by simp [Stmt.matches]⟩
  | .expr _ value => by
    rw [statement]
    exact (expr_accepts _ value).bind fun r => .pure fun ⟨hF, hvalue, herase⟩ =>
      ⟨⟨hF, ⟨r.1, hvalue⟩, by rw [Stmt.map, herase]⟩, by simp [Stmt.matches]⟩

theorem initializer_accepts (expected : Ty) {t : Scopes Symbol} {l : List (Match Ty)} {F : Prop} :
    ∀ init : Option (Expr Unit), Accepts (At t l F) (initializer env expected init) fun init' =>
      At t (l ++ init'.elim [] Expr.matches) (F ∧ Expr.CheckedInit env t expected init' ∧
        init'.map (Expr.map fun _ => ()) = init)
  | none => by
    rw [initializer]
    exact .pure fun hF => ⟨⟨hF, trivial, rfl⟩, by simp⟩
  | some init => by
    rw [initializer]
    exact (expr_accepts _ init).bind fun r => .pure fun ⟨hF, hinit, herase⟩ =>
      ⟨⟨hF, ⟨r.1, hinit⟩, by rw [Option.map_some, herase]⟩, by simp⟩

end

end Trees

section Steps

variable (env : Env)

theorem expr_steps (expected : Ty) (e : Expr Unit) : Steps (expr env expected e) :=
  (expr_accepts env expected e (t := .empty) (l := []) (F := True)).steps

theorem arguments_steps (params : List Ty) (args : List (Expr Unit)) : Steps (arguments env params args) :=
  (arguments_accepts env params args (t := .empty) (l := []) (F := True)).steps

theorem armList_steps (expected type : Ty) (enumName : Option String) (sofar : Ty) (arms : List (Arm Unit)) :
    Steps (armList env expected type enumName sofar arms) :=
  (armList_accepts env expected type enumName sofar arms (t := .empty) (l := []) (F := True)).steps

theorem armBody_steps (expected sofar : Ty) (arm : Arm Unit) : Steps (armBody env expected sofar arm) :=
  (armBody_accepts env expected sofar arm (t := .empty) (l := []) (F := True)).steps

theorem block_steps (b : Block Unit) : Steps (block env b) :=
  (block_accepts env b (t := .empty) (l := []) (F := True)).steps

theorem stmtList_steps (stmts : List (Stmt Unit)) : Steps (stmtList env stmts) :=
  (stmtList_accepts env stmts (t := .empty) (l := []) (F := True)).steps

theorem chain_steps (c : IfChain Unit) : Steps (chain env c) :=
  (chain_accepts env c (t := .empty) (l := []) (F := True)).steps

theorem statement_steps (stmt : Stmt Unit) : Steps (statement env stmt) :=
  (statement_accepts env stmt (t := .empty) (l := []) (F := True)).steps

theorem initializer_steps (type : Ty) (init : Option (Expr Unit)) : Steps (initializer env type init) :=
  (initializer_accepts env type init (t := .empty) (l := []) (F := True)).steps

end Steps

end Walk

end LocLang
