import LocLang.Proofs.Matches.Tests

namespace LocLang

open List

variable {platform : Platform}

namespace EnumTable

variable {enums : EnumTable} {type : Ty} {enumName : Option String} {patterns : List Pattern} {e : Enum}

theorem name_of_get? {name : String} (h : enums.get? name = some e) : e.name = name := by
  simpa using find?_some h

theorem discriminant?_getElem (hnodup : e.variants.Nodup) {i : Nat} (hi : i < e.variants.length) :
    e.discriminant? e.variants[i] = some i := by
  refine idxOf?_eq_some_iff.2 ⟨hi, by simp, fun j hj => ?_⟩
  simpa using pairwise_iff_getElem.1 hnodup j i (by omega) hi hj

/-- Patterns that leave out no variant have one for each of them. -/
theorem exists_variant_of_gap? (hgap : enums.gap? type enumName patterns = none)
    (hrefutable : patterns.any (·.isIrrefutable) = false) (he : enumName.bind enums.get? = some e)
    (hnodup : e.variants.Nodup) {i : Nat} (hi : i < e.variants.length) :
    ∃ p ∈ patterns, p.constant? enums = some (.int .i32 i) := by
  rw [gap?, hrefutable, if_neg Bool.false_ne_true, he] at hgap
  dsimp only at hgap
  split at hgap
  · rename_i hmissing
    have hcovered : e.variants[i] ∈ patterns.filterMap (·.covers? e.name) := by
      have hnot := isEmpty_iff.1 hmissing
      simpa using filter_eq_nil_iff.1 hnot e.variants[i] (getElem_mem hi)
    obtain ⟨p, hp, hcovers⟩ := mem_filterMap.1 hcovered
    refine ⟨p, hp, ?_⟩
    obtain ⟨name, -, hget⟩ := Option.bind_eq_some_iff.1 he
    obtain rfl := name_of_get? hget
    cases p with
    | variant _ name =>
      rw [Pattern.covers?] at hcovers
      split at hcovers
      · rename_i hname
        cases hcovers
        obtain rfl : name = e.name := by simpa using (Bool.and_eq_true_iff.1 hname).1
        rw [Pattern.constant?, discriminant?, hget, Option.bind_some, discriminant?_getElem hnodup hi, Option.map_some]
      · cases hcovers
    | wildcard | literal | bind => cases hcovers
  · cases hgap

/-- Patterns that leave out no truth value have one for each of them. -/
theorem exists_truth_of_gap? (hgap : enums.gap? type enumName patterns = none)
    (hrefutable : patterns.any (·.isIrrefutable) = false) (hnone : enumName.bind enums.get? = none) (b : Bool) :
    ∃ p ∈ patterns, p.constant? enums = some (.ofBool b) := by
  rw [gap?, hrefutable, if_neg Bool.false_ne_true, hnone] at hgap
  dsimp only at hgap
  split at hgap
  · split at hgap
    · rename_i hboth
      obtain ⟨htrue, hfalse⟩ := Bool.and_eq_true_iff.1 hboth
      have htruth : patterns.any (·.isTruth b) := by
        cases b
        · exact hfalse
        · exact htrue
      obtain ⟨p, hp, hb⟩ := any_eq_true.1 htruth
      refine ⟨p, hp, ?_⟩
      unfold Pattern.isTruth at hb
      split at hb
      · rw [of_decide_eq_true hb]
        rfl
      · cases hb
    · cases hgap
  · cases hgap

end EnumTable

theorem Pattern.constant?_of_isIrrefutable {p : Pattern} (h : p.isIrrefutable) (enums : EnumTable) :
    p.constant? enums = none := by
  cases p with
  | wildcard | bind => rfl
  | literal | variant => cases h

/-- A pattern that compares with an integer matches just that one. -/
theorem Pattern.holds_int {enums : EnumTable} {type : MachineTy} {p : Pattern} {n : Int}
    (hconstant : p.constant? enums = some (.int type n)) (htype : type.isFloating = false) (x : BitVec type.size) :
    p.holds platform enums type ⟨type.size, x⟩ = (x == .ofInt _ n) := by
  have hsame : (Constant.int type n).inType type = .int type n := if_pos rfl
  rw [holds, hconstant]
  dsimp only
  rw [hsame, Platform.word, MachineWord.pair?_mk, Option.any_some, Platform.equal, htype, if_neg Bool.false_ne_true]

namespace Program.LoweredMatch

variable {p : Program Unit} {strict : Bool} {m : p.LoweredMatch strict} {w : MachineWord}

/-- The enum of the scrutinee, as far as it is known. -/
def enumName? (m : p.LoweredMatch strict) : Option String :=
  m.scrutinee.enumName? m.state.scopes

def gap? (m : p.LoweredMatch strict) : Option Gap :=
  (p.analyze strict).enums.gap? m.type m.enumName? (m.arms.map (·.pattern))

/-- Whether a word is a value that the arms are checked against: any one if an arm matches by its form, otherwise the
    discriminant of a variant if the enum of the scrutinee is known, otherwise a truth value. -/
def InDomain (m : p.LoweredMatch strict) (w : MachineWord) : Prop :=
  if (m.arms.map (·.pattern)).any (·.isIrrefutable) then w.width = m.value.type.size
  else
    match m.enumName?.bind (p.analyze strict).enums.get? with
    | some e => ∃ i < e.variants.length, w = ⟨32, .ofNat 32 i⟩
    | none => m.value.type = .i1 ∧ ∃ b, w = ⟨1, .ofBool b⟩

/-- If nothing is left out, some arm matches. -/
theorem exists_holds (herrors : (p.analyze strict).hasErrors = false) (hgap : m.gap? = none) (hw : m.InDomain w)
    (platform : Platform) : w.width = m.value.type.size ∧ ∃ (k : Nat) (arm : Arm Ty), m.arms[k]? = some arm ∧
      arm.pattern.holds platform (p.analyze strict).enums m.value.type w = true := by
  have hindex {q : Pattern} (hq : q ∈ m.arms.map (·.pattern))
      (hholds : q.holds platform (p.analyze strict).enums m.value.type w = true) :
      ∃ (k : Nat) (arm : Arm Ty), m.arms[k]? = some arm ∧
        arm.pattern.holds platform (p.analyze strict).enums m.value.type w = true := by
    obtain ⟨arm, harm, rfl⟩ := mem_map.1 hq
    obtain ⟨k, hk⟩ := mem_iff_getElem?.1 harm
    exact ⟨k, arm, hk, hholds⟩
  rw [InDomain] at hw
  split at hw
  · rename_i hirrefutable
    obtain ⟨q, hq, hform⟩ := any_eq_true.1 hirrefutable
    refine ⟨hw, hindex hq ?_⟩
    rw [Pattern.holds, Pattern.constant?_of_isIrrefutable hform]
  · rename_i hrefutable
    rw [Bool.not_eq_true] at hrefutable
    split at hw
    · rename_i e he
      obtain ⟨i, hi, rfl⟩ := hw
      have hknown : m.enumName? ≠ none := by
        intro hnone
        rw [hnone] at he
        cases he
      have htype := (m.width_value herrors).2 hknown
      obtain ⟨name, -, hget⟩ := Option.bind_eq_some_iff.1 he
      have hnodup := nodup_variants herrors e (mem_of_find?_eq_some hget)
      obtain ⟨q, hq, hconstant⟩ := EnumTable.exists_variant_of_gap? hgap hrefutable he hnodup hi
      rw [htype] at hindex ⊢
      refine ⟨rfl, hindex hq ((Pattern.holds_int hconstant rfl _).trans ?_)⟩
      exact beq_self_eq_true (BitVec.ofNat 32 i)
    · rename_i hnone
      obtain ⟨htype, b, rfl⟩ := hw
      obtain ⟨q, hq, hconstant⟩ := EnumTable.exists_truth_of_gap? hgap hrefutable hnone b
      rw [htype] at hindex ⊢
      refine ⟨rfl, hindex hq ((Pattern.holds_int hconstant rfl _).trans ?_)⟩
      cases b <;> rfl

/-- If some arm matches, the machine goes from test to test until it comes to one that does. -/
theorem reaches_arm {g : IrFunction} (htested : ∀ k arm, m.arms[k]? = some arm → ∃ register,
    m.TestedIn g k arm register)
    (hvoid : m.value.type ≠ .void) (hwidth : w.width = m.value.type.size) {j : Nat} {arm : Arm Ty}
    (harm : m.arms[j]? = some arm)
    (hholds : arm.pattern.holds platform (p.analyze strict).enums m.value.type w = true) {k : Nat} (hk : k ≤ j)
    {s : Machine} (hcode : s.top.code = g.blocks) (hstart : s.top.AtStart (m.next k))
    (hread : s.top.read platform m.value = .ok w) : ∃ i arm', m.arms[i]? = some arm' ∧
      (s.Reaches platform fun s' => s'.top.AtStart (.matchTest m.draft.labels i) ∧ s'.Tests platform true) ∧
      s.Reaches platform fun s' => s'.top.AtStart (.matchArm m.draft.labels i) := by
  -- The arms between the test that the machine is at and the arm that is known to match.
  induction hleft : j - k generalizing k s with
  | zero =>
    obtain rfl : k = j := by omega
    rw [next_of_getElem? harm] at hstart
    obtain ⟨register, hin⟩ := htested k arm harm
    have htests := hin.tests hvoid hcode hstart hread hwidth
    have hreaches := hin.reaches hvoid hcode hstart hread hwidth
    rw [hholds] at htests hreaches
    exact ⟨k, arm, harm, .refl ⟨hstart, htests⟩, hreaches.mono fun _ h => h.2.2⟩
  | succ _ ih =>
    obtain ⟨hj, -⟩ := List.getElem?_eq_some_iff.1 harm
    have hthis : m.arms[k]? = some (m.arms[k]) := List.getElem?_eq_getElem (by omega)
    rw [next_of_getElem? hthis] at hstart
    obtain ⟨register, hin⟩ := htested k _ hthis
    have htests := hin.tests hvoid hcode hstart hread hwidth
    have hreaches := hin.reaches hvoid hcode hstart hread hwidth
    cases houtcome : (m.arms[k]).pattern.holds platform (p.analyze strict).enums m.value.type w with
    | true =>
      rw [houtcome] at htests hreaches
      exact ⟨k, _, hthis, .refl ⟨hstart, htests⟩, hreaches.mono fun _ h => h.2.2⟩
    | false =>
      rw [houtcome] at hreaches
      obtain ⟨steps, s', hsteps, hcode', hread', hstart'⟩ := hreaches
      obtain ⟨i, arm', hi, htest, htaken⟩ := ih (by omega) hcode' hstart' hread' (by omega)
      have hfirst : s.Reaches platform (· = s') := ⟨steps, s', hsteps, rfl⟩
      exact ⟨i, arm', hi, hfirst.trans fun _ h => h ▸ htest, hfirst.trans fun _ h => h ▸ htaken⟩

end Program.LoweredMatch

namespace Program

/-- Exhaustiveness is sound for the tests in code. Take a match that is lowered in a program without errors, and of
    which the analysis finds that nothing is left out. Wherever the machine is about to try the arms, with a value of
    the scrutinee that they are checked against, some test comes out true, and the machine goes to the arm of that test.
    It does not come to the block for values without an arm before. -/
theorem exhaustive_match_takes_arm (p : Program Unit) (strict : Bool) (target : Target)
    (herrors : (p.analyze strict).hasErrors = false) (m : p.LoweredMatch strict) (hgap : m.gap? = none) :
    ∃ code g, (p.analyze strict).lower target = .ok code ∧ code.functions[m.index]? = some g ∧
      ∀ (platform : Platform) (s : Machine) (w : MachineWord), s.top.code = g.blocks → s.top.AtStart (m.next 0) →
        s.top.read platform m.value = .ok w → m.InDomain w →
        ∃ k arm, m.arms[k]? = some arm ∧
          (s.Reaches platform fun s' => s'.top.AtStart (.matchTest m.draft.labels k) ∧ s'.Tests platform true) ∧
          ∃ steps s', Machine.Steps platform steps s s' ∧ s'.top.AtStart (.matchArm m.draft.labels k) ∧
            ∀ i < steps, ∀ between, Machine.Steps platform i s between → between.top.code = g.blocks →
              ¬between.top.AtStart (.matchFail m.draft.labels) := by
  obtain ⟨code, hlower, -⟩ := Lower.program_lowers (accepts_of_hasErrors herrors) herrors target
  obtain ⟨g, hg, htested, hfail⟩ := m.exists_tested herrors hlower
  refine ⟨code, g, hlower, hg, fun platform s w hcode hstart hread hw => ?_⟩
  obtain ⟨hwidth, j, arm, harm, hholds⟩ := LoweredMatch.exists_holds herrors hgap hw platform
  obtain ⟨k, taken, htaken, htests, steps, s', hsteps, hat⟩ :=
    LoweredMatch.reaches_arm htested (m.width_value herrors).1 hwidth harm hholds (Nat.zero_le j) hcode hstart hread
  refine ⟨k, taken, htaken, htests, steps, s', hsteps, hat, fun i hi between hbetween hcode' hfailed => ?_⟩
  -- Nothing is defined about what follows that block, but the machine goes on.
  obtain ⟨after, hafter⟩ := hsteps.exists_step hbetween hi
  obtain ⟨hinsts, hterm⟩ := (Activation.atStart_iff (hcode' ▸ hfail)).1 hfailed
  rw [Machine.step_of_term hinsts, hterm] at hafter
  cases hafter

/-- Matches a colour against all of them. -/
def allColours : Source :=
  .ofText "fn main() {
  match Color.Green { Color.Red => print(0), Color.Green => print(1), Color.Blue => print(2), }
}"

def isGreen : Expr Ty → Bool
  | .variant _ "Color" "Green" => true
  | _ => false

theorem exhaustive_match_takes_arm_allColours : ∃ p, allColours.parse = .ok p ∧ (p.analyze true).hasErrors = false ∧
      ∃ m : p.LoweredMatch true, m.gap? = none ∧ ∃ code g, (p.analyze true).lower {} = .ok code ∧
        code.functions[m.index]? = some g ∧ ∀ platform : Platform, ∃ s : Machine,
          s.top.code = g.blocks ∧ s.top.AtStart (m.next 0) ∧ s.top.read platform m.value = .ok ⟨32, 1⟩ ∧
          ∃ k arm, m.arms[k]? = some arm ∧
            s.Reaches platform fun s' => s'.top.AtStart (.matchArm m.draft.labels k) := by
  obtain ⟨p, hparse, herrors, hget, hvisit⟩ : ∃ p, allColours.parse = .ok p ∧ (p.analyze true).hasErrors = false ∧
      (p.analyze true).enums.get? "Color" = some ⟨"Color", ["Red", "Green", "Blue"]⟩ ∧
      (Lower.visit? (p.analyze true) 0 [0, 0, 0]).any (·.2.1.selects fun _ scrutinee arms =>
        isGreen scrutinee && !arms.isEmpty && !(arms.map (·.pattern)).any (·.isIrrefutable) &&
          (p.analyze true).enums.gap? .int32 (some "Color") (arms.map (·.pattern)) = none) :=
    exists_eq_ok_of_any (by decide +kernel)
  obtain ⟨m, hm⟩ := LoweredMatch.exists_of_visit? herrors hvisit
  simp only [Bool.and_eq_true, Bool.not_eq_true', decide_eq_true_eq] at hm
  obtain ⟨⟨⟨hform, hsome⟩, hrefutable⟩, hgap⟩ := hm
  obtain ⟨span, hscrutinee⟩ : ∃ span, m.scrutinee = .variant span "Color" "Green" := by
    unfold isGreen at hform
    split at hform
    · exact ⟨_, by assumption⟩
    · cases hform
  have hname : m.enumName? = some "Color" := by rw [LoweredMatch.enumName?, hscrutinee]; rfl
  have htype : m.type = .int32 := by
    have := (m.checked herrors).type_eq
    rw [hscrutinee] at this
    exact this
  have hnone : m.gap? = none := by rw [LoweredMatch.gap?, hname, htype, hgap]
  obtain ⟨code, g, hlower, hg, htakes⟩ := exhaustive_match_takes_arm p true {} herrors m hnone
  obtain ⟨g', hg', htested, -⟩ := m.exists_tested herrors hlower
  obtain rfl : g' = g := Option.some.inj (hg'.symm.trans hg)
  refine ⟨p, hparse, herrors, m, hnone, code, g', hlower, hg, fun platform => ?_⟩
  obtain ⟨first, hfirst⟩ : ∃ arm, m.arms[0]? = some arm := by
    cases harms : m.arms with
    | nil => simp [harms] at hsome
    | cons arm => exact ⟨arm, rfl⟩
  obtain ⟨register, hin⟩ := htested 0 first hfirst
  obtain ⟨s, hcode, hstart⟩ := hin.exists_atStart
  rw [← LoweredMatch.next_of_getElem? hfirst] at hstart
  obtain ⟨n, hn, hvalue⟩ := m.value_of_variant herrors hscrutinee
  rw [EnumTable.discriminant?, hget] at hn
  obtain rfl : 1 = n := Option.some.inj hn
  have hread : s.top.read platform m.value = .ok ⟨32, 1⟩ := by rw [hvalue, Activation.read_const]; rfl
  have hdomain : m.InDomain ⟨32, 1⟩ := by
    rw [LoweredMatch.InDomain, hrefutable, if_neg Bool.false_ne_true, hname, Option.bind_some, hget]
    exact ⟨1, by decide, rfl⟩
  obtain ⟨k, arm, harm, -, steps, s', hsteps, hat, -⟩ := htakes platform s ⟨32, 1⟩ hcode hstart hread hdomain
  exact ⟨s, hcode, hstart, hread, k, arm, harm, steps, s', hsteps, hat⟩

end Program

end LocLang
