import LocLang.Proofs.Matches.Exhaustive

namespace LocLang

variable {name other variant : String} {span : Span}

namespace Walk

variable {s s' : State} {u : Unit}

/-- A pattern that is found to be of another enum has a variant of that enum. -/
theorem of_foreignVariant {enums : EnumTable} {type : Ty} {enumName : Option String} {p : Pattern}
    (h : (pattern enums type enumName p).Gives s u s')
    (hs' : s' = { s with log := s.log.addFinding (.foreignVariant name other) span }) :
    enumName = some other ∧ ∃ span variant args, p = .variant span name variant args ∧ enums.Has name variant := by
  have hfindings : s'.log.findings = s.log.findings ++ [⟨.foreignVariant name other, span⟩] := by rw [hs']; rfl
  have hreport {issue : Issue} {place : Span} (h : (report issue place).Gives s u s') :
      issue = .foreignVariant name other := by
    rw [gives_report.1 h] at hfindings
    have hlast := List.append_cancel_left hfindings
    cases hlast
    rfl
  have hpure (h : (pure () : Walk Unit).Gives s u s') : False := by
    obtain ⟨-, rfl⟩ := gives_pure.1 h
    simp at hfindings
  cases p with
  | wildcard => exact (hpure h).elim
  | literal =>
    rw [pattern] at h
    split at h
    · rename_i issue hissue
      obtain rfl := hreport h
      simp only [Literal.patternIssue?] at hissue
      split at hissue
      · cases hissue
      · split at hissue <;> cases hissue
    · exact (hpure h).elim
  | bind =>
    have hsymbols := (of_define h).2
    rw [hs'] at hsymbols
    exact absurd (congrArg List.length hsymbols) (by simp [Log.addFinding])
  | variant place found variant args =>
    rw [pattern] at h
    split at h
    · rename_i issue hissue
      obtain rfl := hreport h
      cases EnumTable.isFatal_of_variantIssue? hissue
    · rename_i hissue
      have hhas := EnumTable.has_of_variantIssue? hissue
      have hcount {s1 : State} (h : (if 0 < (args.getD []).length then
            report (.patternArity found variant (args.getD []).length) place else pure ()).Gives s1 u s') :
          s' = s1 := by
        split at h
        · rw [gives_report.1 h] at hfindings
          have hlast := congrArg List.getLast? hfindings
          simp [Log.addFinding] at hlast
        · exact (gives_pure.1 h).2
      split at h
      · rename_i scrutineeEnum
        split at h
        · obtain ⟨_, s1, hwarning, h⟩ := gives_bind.1 h
          obtain rfl := hcount h
          cases hreport hwarning
          exact ⟨rfl, place, variant, args, rfl, hhas⟩
        · obtain rfl := hcount h
          simp at hfindings
      · obtain rfl := hcount h
        simp at hfindings

theorem gives_foreignVariant {enums : EnumTable} {type : Ty}
    (hissue : enums.variantIssue? name variant = none) (hne : other ≠ name) (s : State) :
    (pattern enums type (some other) (.variant span name variant none)).Gives s ()
      { s with log := s.log.addFinding (.foreignVariant name other) span } := by
  rw [pattern, hissue]
  dsimp only
  rw [if_pos hne]
  exact gives_bind.2 ⟨(), _, gives_report.2 rfl, rfl⟩

end Walk

namespace Program.LoweredMatch

variable {p : Program Unit} {strict : Bool} {m : p.LoweredMatch strict}

/-- Whether the analysis warns that an arm has a pattern of the enum `name`, which can never match a value of the enum
    `other`. -/
def Warns (m : p.LoweredMatch strict) (arm : Arm Ty) (name other : String) : Prop :=
  ∃ s, (Walk.pattern (p.analyze strict).enums m.type m.enumName? arm.pattern).Gives s ()
    { s with log := s.log.addFinding (.foreignVariant name other) arm.pattern.span }

theorem warns_of_variant {arm : Arm Ty} {span' : Span} {v : String} (hscrutinee : m.scrutinee = .variant span other v)
    (hpattern : arm.pattern = .variant span' name variant none)
    (hissue : (p.analyze strict).enums.variantIssue? name variant = none) (hne : other ≠ name) :
    m.Warns arm name other := by
  have hname : m.enumName? = some other := by rw [enumName?, hscrutinee]; rfl
  refine ⟨m.state, ?_⟩
  rw [hname, hpattern]
  exact Walk.gives_foreignVariant hissue hne m.state

/-- The test of an arm with a variant is whether the discriminant is that of the variant. -/
theorem TestedIn.tests_variant {g : IrFunction} {k register : Nat} {arm : Arm Ty}
    (h : m.TestedIn g k arm register) (htype : m.value.type = .i32)
    {args : Option (List Pattern)} {n : Nat} (hpattern : arm.pattern = .variant span name variant args)
    (hn : (p.analyze strict).enums.discriminant? name variant = some n) {platform : Platform} {s : Machine}
    (hcode : s.top.code = g.blocks) (hstart : s.top.AtStart (.matchTest m.draft.labels k)) {x : BitVec 32}
    (hread : s.top.read platform m.value = .ok ⟨32, x⟩) : s.Tests platform (x == .ofNat 32 n) := by
  have hconstant : arm.pattern.constant? (p.analyze strict).enums = some (.int .i32 n) := by
    rw [hpattern, Pattern.constant?, hn, Option.map_some]
  have hholds : arm.pattern.holds platform (p.analyze strict).enums m.value.type ⟨32, x⟩ = (x == .ofNat 32 n) := by
    rw [htype, ← BitVec.ofInt_natCast]
    exact Pattern.holds_int hconstant rfl x
  exact hholds ▸ h.tests (by simp [htype]) hcode hstart hread (by rw [htype]; rfl)

end Program.LoweredMatch

namespace Program

/-- When a pattern of which the analysis warns is taken after all. Take an arm of a match that is lowered in a program
    without errors, with a warning that its pattern of the enum `name` can never match a value of the enum `other`.
    Wherever the machine is about to try that arm, with a variant of `other` as the value of the scrutinee, the test
    comes out false just if the variant has another discriminant than that of the pattern. -/
theorem foreign_arm_fails_iff (p : Program Unit) (strict : Bool) (target : Target)
    (herrors : (p.analyze strict).hasErrors = false) (m : p.LoweredMatch strict) {k : Nat} {arm : Arm Ty}
    (harm : m.arms[k]? = some arm) {name other : String} (hwarns : m.Warns arm name other) :
    ∃ code g span variant args n, (p.analyze strict).lower target = .ok code ∧ code.functions[m.index]? = some g ∧
      arm.pattern = .variant span name variant args ∧ (p.analyze strict).enums.discriminant? name variant = some n ∧
      ∀ (platform : Platform) (s : Machine) (v : String) (i : Nat),
        (p.analyze strict).enums.discriminant? other v = some i → s.top.code = g.blocks →
        s.top.AtStart (.matchTest m.draft.labels k) → s.top.read platform m.value = .ok ⟨32, .ofNat 32 i⟩ →
        (s.Tests platform false ↔ BitVec.ofNat 32 i ≠ BitVec.ofNat 32 n) := by
  obtain ⟨_, hpattern⟩ := hwarns
  obtain ⟨hname, span, variant, args, hform, n, hn⟩ := Walk.of_foreignVariant hpattern rfl
  have htype : m.value.type = .i32 := (m.width_value herrors).2 fun hnone => by
    rw [LoweredMatch.enumName?, hnone] at hname
    cases hname
  obtain ⟨code, hlower, -⟩ := Lower.program_lowers (accepts_of_hasErrors herrors) herrors target
  obtain ⟨g, hg, htested, -⟩ := m.exists_tested herrors hlower
  obtain ⟨register, hin⟩ := htested k arm harm
  refine ⟨code, g, span, variant, args, n, hlower, hg, hform, hn, fun platform s v i _ hcode hstart hread => ?_⟩
  have htests := hin.tests_variant htype hform hn hcode hstart hread
  constructor
  · intro hfalse
    simpa using htests.unique hfalse
  · intro hne
    rwa [beq_false_of_ne hne] at htests

/-- Matches a colour against two statuses. -/
def colourAsStatus : Source :=
  .ofText "fn main() {
  match Color.Red { Status.Error => print(2), Status.Success => print(1), _ => print(0), }
}"

def isColourAsStatus : Expr Ty → List Pattern → Bool
  | .variant _ "Color" "Red", [.variant _ "Status" "Error" none, .variant _ "Status" "Success" none, _] => true
  | _, _ => false

/-- Both statuses are warned of. -/
theorem warns_colourAsStatus : ∃ p, colourAsStatus.parse = .ok p ∧ (p.analyze true).hasErrors = false ∧
    (p.analyze true).enums = .predefined ∧ ∃ (m : p.LoweredMatch true) (first second : Arm Ty) (span span' : Span),
      m.value = .const (.int .i32 0) ∧ m.arms[0]? = some first ∧ m.arms[1]? = some second ∧
      first.pattern = .variant span "Status" "Error" none ∧ second.pattern = .variant span' "Status" "Success" none ∧
      m.Warns first "Status" "Color" ∧ m.Warns second "Status" "Color" := by
  obtain ⟨p, hparse, herrors, henums, hvisit⟩ : ∃ p, colourAsStatus.parse = .ok p ∧
      (p.analyze true).hasErrors = false ∧ (p.analyze true).enums = .predefined ∧
      (Lower.visit? (p.analyze true) 0 [0, 0, 0]).any
        (·.2.1.selects fun _ scrutinee arms => isColourAsStatus scrutinee (arms.map Arm.pattern)) :=
    exists_eq_ok_of_any (by decide +kernel)
  obtain ⟨m, hm⟩ := LoweredMatch.exists_of_visit? herrors hvisit
  unfold isColourAsStatus at hm
  split at hm
  · rename_i span span0 span1 last hscrutinee hpatterns
    have harms (k : Nat) : m.arms[k]?.map Arm.pattern = [Pattern.variant span0 "Status" "Error" none,
        .variant span1 "Status" "Success" none, last][k]? := by rw [← hpatterns, List.getElem?_map]
    obtain ⟨first, hfirst, hfirst'⟩ := Option.map_eq_some_iff.1 (harms 0)
    obtain ⟨second, hsecond, hsecond'⟩ := Option.map_eq_some_iff.1 (harms 1)
    obtain ⟨n, hn, hvalue⟩ := m.value_of_variant herrors hscrutinee
    rw [henums] at hn
    obtain rfl : 0 = n := Option.some.inj hn
    have hwarns {arm : Arm Ty} {place : Span} {variant : String}
        (hpattern : arm.pattern = .variant place "Status" variant none)
        (hissue : EnumTable.predefined.variantIssue? "Status" variant = none) : m.Warns arm "Status" "Color" :=
      LoweredMatch.warns_of_variant hscrutinee hpattern (henums ▸ hissue) (by decide)
    exact ⟨p, hparse, herrors, henums, m, first, second, span0, span1, hvalue, hfirst, hsecond, hfirst', hsecond',
      hwarns hfirst' rfl, hwarns hsecond' rfl⟩
  · cases hm

/-- The warning about the first status is right for the red that is matched. -/
theorem foreign_arm_fails_iff_colourAsStatus : ∃ p, colourAsStatus.parse = .ok p ∧ (p.analyze true).hasErrors = false ∧
      ∃ (m : p.LoweredMatch true) (arm : Arm Ty), m.arms[0]? = some arm ∧ m.Warns arm "Status" "Color" ∧
        ∃ code g, (p.analyze true).lower {} = .ok code ∧ code.functions[m.index]? = some g ∧
          ∀ platform : Platform, ∃ s : Machine, s.top.code = g.blocks ∧
            s.top.AtStart (.matchTest m.draft.labels 0) ∧ s.top.read platform m.value = .ok ⟨32, 0⟩ ∧
            s.Tests platform false := by
  obtain ⟨p, hparse, herrors, henums, m, arm, -, span, -, hvalue, harm, -, hpattern, -, hwarns, -⟩ :=
    warns_colourAsStatus
  obtain ⟨code, g, span', variant, args, n, hlower, hg, hpattern', hn, htests⟩ :=
    foreign_arm_fails_iff p true {} herrors m harm hwarns
  cases hpattern.symm.trans hpattern'
  rw [henums] at hn htests
  obtain rfl : 2 = n := Option.some.inj hn
  refine ⟨p, hparse, herrors, m, arm, harm, hwarns, code, g, hlower, hg, fun platform => ?_⟩
  obtain ⟨g', hg', htested, -⟩ := m.exists_tested herrors hlower
  obtain rfl : g' = g := Option.some.inj (hg'.symm.trans hg)
  obtain ⟨register, hin⟩ := htested 0 arm harm
  obtain ⟨s, hcode, hstart⟩ := hin.exists_atStart
  have hread : s.top.read platform m.value = .ok ⟨32, 0⟩ := by rw [hvalue, Activation.read_const]; rfl
  exact ⟨s, hcode, hstart, hread, (htests platform s "Red" 0 rfl hcode hstart hread).2 (by decide)⟩

/-- The warning about the second status is wrong: the red that is matched comes to its arm. -/
theorem foreign_arm_taken_colourAsStatus : ∃ p, colourAsStatus.parse = .ok p ∧ (p.analyze true).hasErrors = false ∧
      ∃ (m : p.LoweredMatch true) (arm : Arm Ty), m.arms[1]? = some arm ∧ m.Warns arm "Status" "Color" ∧
        ∃ code g, (p.analyze true).lower {} = .ok code ∧ code.functions[m.index]? = some g ∧
          (p.analyze true).enums.discriminant? "Color" "Red" = some 0 ∧
          ∀ platform : Platform, ∃ s : Machine, s.top.code = g.blocks ∧
            s.top.AtStart (.matchTest m.draft.labels 1) ∧ s.top.read platform m.value = .ok ⟨32, 0⟩ ∧
            s.Tests platform true ∧ ¬s.Tests platform false := by
  obtain ⟨p, hparse, herrors, henums, m, -, arm, -, span, hvalue, -, harm, -, hpattern, -, hwarns⟩ :=
    warns_colourAsStatus
  obtain ⟨code, hlower, -⟩ := Lower.program_lowers (accepts_of_hasErrors herrors) herrors {}
  obtain ⟨g, hg, htested, -⟩ := m.exists_tested herrors hlower
  obtain ⟨register, hin⟩ := htested 1 arm harm
  refine ⟨p, hparse, herrors, m, arm, harm, hwarns, code, g, hlower, hg, henums ▸ rfl, fun platform => ?_⟩
  obtain ⟨s, hcode, hstart⟩ := hin.exists_atStart
  have hread : s.top.read platform m.value = .ok ⟨32, 0⟩ := by rw [hvalue, Activation.read_const]; rfl
  have hzero : (p.analyze true).enums.discriminant? "Status" "Success" = some 0 := henums ▸ rfl
  have htests := hin.tests_variant (by rw [hvalue]; rfl) hpattern hzero hcode hstart hread
  exact ⟨s, hcode, hstart, hread, htests, fun hfalse => Bool.noConfusion (htests.unique hfalse)⟩

end Program

end LocLang
