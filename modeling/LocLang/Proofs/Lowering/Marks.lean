import LocLang.Lowering.Body
import Mathlib.Data.List.Nodup

namespace LocLang

open List

/-- The number of the construct that a block belongs to. -/
def Label.number? : Label → Option Nat
  | entry => none
  | ifThen n | ifElse n | ifEnd n | whileCond n | whileBody n | whileEnd n | matchTest n _ | matchArm n _ | matchFail n
  | matchEnd n => some n

/-- What the number of a construct is used for. -/
inductive Mark where
  /-- A block starts. -/
  | place (label : Label)
  /-- A block may go to another one. -/
  | jump (label : Label)
  /-- The slot for the value of a match is made, written or read. -/
  | allocate (number : Nat)
  | store (number : Nat)
  | load (number : Nat)
deriving DecidableEq, Repr

namespace Mark

def number? : Mark → Option Nat
  | place label | jump label => label.number?
  | allocate n | store n | load n => some n

/-- Whether it is code, which slots are kept apart from. -/
def isCode : Mark → Bool
  | allocate _ => false
  | _ => true

/-- Whether it is part of the control flow. -/
def isWay : Mark → Bool
  | place _ | jump _ => true
  | _ => false

def placed? : Mark → Option Label
  | place label => some label
  | _ => none

section

variable (label : Label) (n : Nat)

@[simp]
theorem isCode_place : (place label).isCode = true := rfl

@[simp]
theorem isCode_jump : (jump label).isCode = true := rfl

@[simp]
theorem isCode_allocate : (allocate n).isCode = false := rfl

@[simp]
theorem isCode_store : (store n).isCode = true := rfl

@[simp]
theorem isCode_load : (load n).isCode = true := rfl

@[simp]
theorem isWay_place : (place label).isWay = true := rfl

@[simp]
theorem isWay_jump : (jump label).isWay = true := rfl

@[simp]
theorem placed?_place : (place label).placed? = some label := rfl

@[simp]
theorem placed?_jump : (jump label).placed? = none := rfl

@[simp]
theorem placed?_allocate : (allocate n).placed? = none := rfl

@[simp]
theorem placed?_store : (store n).placed? = none := rfl

@[simp]
theorem placed?_load : (load n).placed? = none := rfl

end

end Mark

/-- The slot for the value of a match. -/
def SlotName.mark? : SlotName → Option Mark
  | named _ _ => none
  | result n => some (.allocate n)

/-- What an instruction does to the slot for the value of a match. -/
def Inst.mark? : Inst → Option Mark
  | store _ ⟨.result n, _⟩ => some (.store n)
  | load _ ⟨.result n, _⟩ => some (.load n)
  | _ => none

theorem Inst.eq_of_mark? {i : Inst} {m : Mark} (h : i.mark? = some m) : ∃ n, m = .store n ∨ m = .load n := by
  unfold mark? at h
  split at h <;> cases h
  · exact ⟨_, .inl rfl⟩
  · exact ⟨_, .inr rfl⟩

namespace Mark

/-- Whether marks are as planned, but for ways to blocks that are not taken. -/
inductive Follow : List Mark → List Mark → Prop where
  | nil : Follow [] []
  | keep (m : Mark) {marks planned : List Mark} (rest : Follow marks planned) : Follow (m :: marks) (m :: planned)
  | skip (label : Label) {marks planned : List Mark} (rest : Follow marks planned) :
      Follow marks (.jump label :: planned)

namespace Follow

variable {marks marks' planned planned' : List Mark} {m : Mark}

theorem refl : ∀ marks : List Mark, Follow marks marks
  | [] => .nil
  | m :: marks => .keep m (refl marks)

theorem append (h : Follow marks planned) (h' : Follow marks' planned') :
    Follow (marks ++ marks') (planned ++ planned') := by
  induction h with
  | nil => exact h'
  | keep m _ ih => exact .keep m ih
  | skip label _ ih => exact .skip label ih

theorem sublist (h : Follow marks planned) : marks.Sublist planned := by
  induction h with
  | nil => exact .slnil
  | keep m _ ih => exact ih.cons_cons m
  | skip _ _ ih => exact ih.cons _

/-- Nothing is missing but ways to blocks. -/
theorem mem (h : Follow marks planned) (hm : m ∈ planned) (hjump : ∀ label, m ≠ .jump label) : m ∈ marks := by
  induction h with
  | nil => exact hm
  | keep _ _ ih =>
    rcases mem_cons.1 hm with rfl | hm
    · exact mem_cons_self
    · exact mem_cons_of_mem _ (ih hm)
  | skip label _ ih =>
    rcases mem_cons.1 hm with rfl | hm
    · exact absurd rfl (hjump label)
    · exact ih hm

theorem placed_eq (h : Follow marks planned) : marks.filterMap (·.placed?) = planned.filterMap (·.placed?) := by
  induction h with
  | nil => rfl
  | keep _ _ ih => rw [filterMap_cons, filterMap_cons, ih]
  | skip _ _ ih => rw [filterMap_cons_none rfl, ih]

theorem count_eq (h : Follow marks planned) (hm : ∀ label, m ≠ .jump label) : marks.count m = planned.count m := by
  induction h with
  | nil => rfl
  | keep _ _ ih => rw [count_cons, count_cons, ih]
  | skip label _ ih => rw [count_cons_of_ne (hm label).symm, ih]

/-- A block starts where that is planned. -/
theorem of_place {label : Label} (h : Follow marks (planned ++ .place label :: planned')) :
    ∃ before after, marks = before ++ .place label :: after ∧ Follow before planned ∧ Follow after planned' := by
  induction planned generalizing marks with
  | nil =>
    cases h with
    | keep _ rest => exact ⟨[], _, rfl, .nil, rest⟩
  | cons m _ ih =>
    cases h with
    | keep _ rest =>
      obtain ⟨before, after, rfl, hbefore, hafter⟩ := ih rest
      exact ⟨m :: before, after, rfl, .keep m hbefore, hafter⟩
    | skip label rest =>
      obtain ⟨before, after, rfl, hbefore, hafter⟩ := ih rest
      exact ⟨before, after, rfl, .skip label hbefore, hafter⟩

/-- A mark stands in the plan where it stands. -/
theorem split (h : Follow (marks ++ m :: marks') planned) :
    ∃ before after, planned = before ++ m :: after ∧ Follow marks before ∧ Follow marks' after := by
  generalize hall : marks ++ m :: marks' = all at h
  induction h generalizing marks with
  | nil => simp at hall
  | keep m' rest ih =>
    cases marks with
    | nil =>
      cases hall
      exact ⟨[], _, rfl, .nil, rest⟩
    | cons =>
      cases hall
      obtain ⟨before, after, rfl, hbefore, hafter⟩ := ih rfl
      exact ⟨m' :: before, after, rfl, .keep m' hbefore, hafter⟩
  | skip label _ ih =>
    obtain ⟨before, after, rfl, hbefore, hafter⟩ := ih hall
    exact ⟨.jump label :: before, after, rfl, .skip label hbefore, hafter⟩

end Follow

/-- Whether every way is allowed: by the block that it comes from, the one that it goes to, and those that start later.
    -/
def Ways (allowed : Option Label → Label → List Label → Prop) : Option Label → List Mark → Prop
  | _, [] => True
  | _, .place label :: marks => Ways allowed (some label) marks
  | last, .jump label :: marks => allowed last label (marks.filterMap (·.placed?)) ∧ Ways allowed last marks
  | last, _ :: marks => Ways allowed last marks

theorem Ways.allowed {allowed : Option Label → Label → List Label → Prop} {before after : List Mark} {label : Label}
    {last : Option Label} (h : Ways allowed last (before ++ .jump label :: after)) :
    allowed ((before.filterMap (·.placed?)).getLast?.or last) label (after.filterMap (·.placed?)) := by
  induction before generalizing last with
  | nil => simpa using h.1
  | cons m _ ih =>
    cases m with
    | place => simpa [filterMap_cons, getLast?_cons] using ih h
    | jump => exact ih h.2
    | _ => exact ih h

end Mark

/-- The kinds of constructs. -/
inductive Construct where
  /-- A condition without a second branch. -/
  | only
  | both
  | loop
  /-- A match, of which some arms write its value, if it has one. -/
  | select (arms : List Bool) (valued : Bool)

namespace Construct

/-- Where a match goes on after its first `k` arms failed, `arms` being those left. -/
def next (n k : Nat) (arms : List Bool) : Label :=
  if arms.isEmpty then .matchFail n else .matchTest n k

/-- An arm of a match, after which there are the given ones. -/
def armMarks (n k : Nat) (writes : Bool) (others : List Bool) : List Mark :=
  .place (.matchTest n k) :: .jump (.matchArm n k) :: .jump (next n (k + 1) others) :: .place (.matchArm n k) ::
    ((if writes then [.store n] else []) ++ [.jump (.matchEnd n)])

/-- The arms of a match after the first `k`. -/
def armsMarks (n : Nat) : Nat → List Bool → List Mark
  | _, [] => []
  | k, writes :: others => armMarks n k writes others ++ armsMarks n (k + 1) others

/-- What a construct uses its number for. -/
def marks (n : Nat) : Construct → List Mark
  | only => [.jump (.ifThen n), .jump (.ifEnd n), .place (.ifThen n), .jump (.ifEnd n), .place (.ifEnd n)]
  | both =>
    [.jump (.ifThen n), .jump (.ifElse n), .place (.ifThen n), .jump (.ifEnd n), .place (.ifElse n), .jump (.ifEnd n),
      .place (.ifEnd n)]
  | loop =>
    [.jump (.whileCond n), .place (.whileCond n), .jump (.whileBody n), .jump (.whileEnd n), .place (.whileBody n),
      .jump (.whileCond n), .place (.whileEnd n)]
  | select arms valued =>
    (if valued then [.allocate n] else []) ++ .jump (next n 0 arms) :: (armsMarks n 0 arms ++
      .place (.matchFail n) :: .place (.matchEnd n) :: if valued then [.load n] else [])

variable {n : Nat}

@[simp]
theorem number?_next (n k : Nat) (arms : List Bool) : (next n k arms).number? = some n := by
  rw [next]
  split <;> rfl

@[simp]
theorem next_cons (n k : Nat) (writes : Bool) (others : List Bool) : next n k (writes :: others) = .matchTest n k := rfl

theorem armsMarks_spec (n k : Nat) (arms : List Bool) :
    ∀ m ∈ armsMarks n k arms, m.number? = some n ∧ m.isCode = true := by
  induction arms generalizing k with
  | nil => simp [armsMarks]
  | cons _ _ ih =>
    refine forall_mem_append.2 ⟨fun m hm => ?_, ih (k + 1)⟩
    grind [armMarks, number?_next, Mark.number?, Mark.isCode, Label.number?]

theorem number?_of_mem_marks {c : Construct} : ∀ m ∈ c.marks n, m.number? = some n := by
  cases c with
  | only | both | loop => simp [marks, Mark.number?, Label.number?]
  | select =>
    grind [marks, armsMarks_spec, number?_next, Mark.number?, Label.number?]

/-- A construct makes one slot at most. -/
theorem nodup_allocate (n : Nat) (c : Construct) : ((c.marks n).filter (!·.isCode)).Nodup := by
  cases c with
  | only | both | loop => simp [marks]
  | select arms valued =>
    have harms : (armsMarks n 0 arms).filter (!·.isCode) = [] :=
      filter_eq_nil_iff.2 fun m hm => by simp [(armsMarks_spec n 0 arms m hm).2]
    cases valued <;> simp [marks, harms]

theorem placed_armsMarks (n k : Nat) (arms : List Bool) : (armsMarks n k arms).filterMap (·.placed?) =
      (range' k arms.length).flatMap fun i => [.matchTest n i, .matchArm n i] := by
  induction arms generalizing k with
  | nil => rfl
  | cons writes _ ih =>
    rw [armsMarks, filterMap_append, ih]
    cases writes <;> simp [armMarks, filterMap_cons, range'_succ]

/-- The blocks of a match: its tests, each with its arm, and what follows them. -/
theorem placed_select (n : Nat) (arms : List Bool) (valued : Bool) :
      (marks n (select arms valued)).filterMap (·.placed?) = ((range arms.length).flatMap fun i =>
      [.matchTest n i, .matchArm n i]) ++ [.matchFail n, .matchEnd n] := by
  cases valued <;> simp [marks, filterMap_cons, placed_armsMarks, range_eq_range']

/-- No two blocks of a construct are the same. -/
theorem nodup_placed (n : Nat) (c : Construct) : ((c.marks n).filterMap (·.placed?)).Nodup := by
  cases c with
  | only | both | loop => simp [marks, filterMap_cons]
  | select =>
    rw [placed_select, nodup_append, nodup_flatMap]
    refine ⟨⟨by simp, ?_⟩, by simp, fun l hl l' hl' => ?_⟩
    · exact nodup_range.imp fun hne => by simpa [Function.onFun, List.Disjoint] using hne
    · obtain ⟨i, -, hi⟩ := mem_flatMap.1 hl
      grind

theorem code_select (n : Nat) (arms : List Bool) (valued : Bool) :
    (marks n (select arms valued)).filter (·.isCode) = .jump (next n 0 arms) :: (armsMarks n 0 arms ++
      .place (.matchFail n) :: .place (.matchEnd n) :: if valued then [.load n] else []) := by
  have harms : (armsMarks n 0 arms).filter (·.isCode) = armsMarks n 0 arms :=
    filter_eq_self.2 fun m hm => (armsMarks_spec n 0 arms m hm).2
  cases valued <;> simp [marks, harms, filter_cons]

theorem count_armsMarks (n k : Nat) (arms : List Bool) :
    (armsMarks n k arms).count (.store n) = arms.count true ∧ (armsMarks n k arms).count (.load n) = 0 := by
  induction arms generalizing k with
  | nil => exact ⟨rfl, rfl⟩
  | cons writes _ ih =>
    obtain ⟨hstore, hload⟩ := ih (k + 1)
    rw [armsMarks, count_append, count_append, hstore, hload]
    cases writes <;> simp [armMarks, Nat.add_comm]

/-- A match writes its value in every arm that does so, and reads it once. -/
theorem count_select (n : Nat) (arms : List Bool) (valued : Bool) :
    ((marks n (select arms valued)).filter (·.isCode)).count (.store n) = arms.count true ∧
      ((marks n (select arms valued)).filter (·.isCode)).count (.load n) = if valued then 1 else 0 := by
  obtain ⟨hstore, hload⟩ := count_armsMarks n 0 arms
  rw [code_select]
  cases valued <;> simp [count_append, hstore, hload]

/-- What stands at an arm of a match, up to where the next block starts. -/
theorem select_arm (n : Nat) (passed : List Bool) (writes : Bool) (others : List Bool) (valued : Bool) :
    ∃ before after, (marks n (select (passed ++ writes :: others) valued)).filter (·.isCode) =
      before ++ .place (.matchArm n passed.length) :: ((if writes then [.store n] else []) ++ [.jump (.matchEnd n)] ++
        .place (next n (passed.length + 1) others) :: after) := by
  have hnext (k : Nat) (tail : List Mark) :
      ∃ after, armsMarks n k others ++ .place (.matchFail n) :: tail = .place (next n k others) :: after := by
    cases others with
    | nil | cons => exact ⟨_, rfl⟩
  have harms (k : Nat) : ∃ before, armsMarks n k (passed ++ writes :: others) = before ++
      armMarks n (k + passed.length) writes others ++ armsMarks n (k + passed.length + 1) others := by
    induction passed generalizing k with
    | nil => exact ⟨[], rfl⟩
    | cons w passed ih =>
      obtain ⟨before, hbefore⟩ := ih (k + 1)
      refine ⟨armMarks n k w (passed ++ writes :: others) ++ before, ?_⟩
      rw [cons_append, armsMarks, hbefore, length_cons, show k + (passed.length + 1) = k + 1 + passed.length by omega]
      simp only [append_assoc]
  obtain ⟨before, hbefore⟩ := harms 0
  rw [Nat.zero_add] at hbefore
  obtain ⟨after, hafter⟩ := hnext (passed.length + 1) (.place (.matchEnd n) :: if valued then [.load n] else [])
  refine ⟨.jump (next n 0 (passed ++ writes :: others)) :: (before ++ [.place (.matchTest n passed.length),
    .jump (.matchArm n passed.length), .jump (next n (passed.length + 1) others)]), after, ?_⟩
  rw [code_select, hbefore, append_assoc, hafter]
  simp [armMarks]

/-- The ways of a match. They go to its first test or from a test, before whose arm nothing starts, or from an arm to
    the end. -/
def Goes (n : Nat) (last : Option Label) (label : Label) (later : List Label) : Prop :=
  label ∈ later ∧ (last = none ∧ label ≠ .matchEnd n ∨
    (∃ j, last = some (.matchTest n j) ∧ later.head? = some (.matchArm n j) ∧ label ≠ .matchEnd n) ∨
    ∃ j, last = some (.matchArm n j) ∧ label = .matchEnd n)

theorem ways_armsMarks {after : List Mark} (h : ∀ last, Mark.Ways (Goes n) last after)
    (hfail : .matchFail n ∈ after.filterMap (·.placed?)) (hend : .matchEnd n ∈ after.filterMap (·.placed?))
    (arms : List Bool) (k : Nat) (last : Option Label) : Mark.Ways (Goes n) last (armsMarks n k arms ++ after) ∧
      next n k arms ∈ (armsMarks n k arms ++ after).filterMap (·.placed?) := by
  induction arms generalizing k last with
  | nil => exact ⟨h last, hfail⟩
  | cons writes others ih =>
    obtain ⟨hways, hnext⟩ := ih (k + 1) (some (.matchArm n k))
    rw [mem_filterMap] at hnext
    have hne : next n (k + 1) others ≠ .matchEnd n := by
      rw [next]
      split <;> simp
    simp only [mem_append, or_and_right, exists_or] at hnext
    cases writes <;>
      simp [armsMarks, armMarks, Mark.Ways, Goes, filterMap_cons, hways, hnext, hend, hne]

theorem ways_select (n : Nat) (arms : List Bool) (valued : Bool) :
    Mark.Ways (Goes n) none (marks n (select arms valued)) := by
  have hafter (last : Option Label) : Mark.Ways (Goes n) last
      (.place (.matchFail n) :: .place (.matchEnd n) :: if valued then [.load n] else []) := by
    cases valued <;> simp [Mark.Ways]
  have hne : next n 0 arms ≠ .matchEnd n := by
    rw [next]
    split <;> simp
  obtain ⟨hways, hnext⟩ := ways_armsMarks hafter (by simp) (by simp) arms 0 none
  cases valued <;> exact ⟨⟨hnext, .inl ⟨rfl, hne⟩⟩, hways⟩

/-- A construct goes only to blocks of its own that start later, but for the way back of a loop from its body. -/
theorem land {c : Construct} {before after : List Mark} {label : Label}
    (h : c.marks n = before ++ .jump label :: after) :
    .place label ∈ after ∨ c = .loop ∧ label = .whileCond n ∧ .place (.whileCond n) ∈ before ∧
      .place (.whileBody n) ∈ before ∧ .place (.whileEnd n) ∈ after := by
  have hplace (hlater : label ∈ after.filterMap (·.placed?)) : .place label ∈ after := by
    obtain ⟨m, hm, hplaced⟩ := mem_filterMap.1 hlater
    cases m <;> cases hplaced
    exact hm
  cases c with
  | only =>
    have hways : Mark.Ways (fun _ label later => label ∈ later) none (only.marks n) := by
      simp [marks, Mark.Ways]
    exact .inl (hplace (Mark.Ways.allowed (h ▸ hways)))
  | both =>
    have hways : Mark.Ways (fun _ label later => label ∈ later) none (both.marks n) := by
      simp [marks, Mark.Ways]
    exact .inl (hplace (Mark.Ways.allowed (h ▸ hways)))
  | loop =>
    simp only [marks, cons_eq_append_iff, cons.injEq, nil_eq, append_eq_nil_iff] at h
    rcases h with ⟨rfl, ⟨⟩, rfl⟩ | ⟨_, rfl, ⟨rfl, ⟨⟩, rfl⟩ | ⟨_, rfl, ⟨rfl, ⟨⟩, rfl⟩ | ⟨_, rfl, ⟨rfl, ⟨⟩, rfl⟩ |
      ⟨_, rfl, ⟨rfl, ⟨⟩, rfl⟩ | ⟨_, rfl, ⟨rfl, ⟨⟩, rfl⟩ | ⟨_, rfl, h⟩⟩⟩⟩⟩⟩ <;> simp_all
  | select arms valued => exact .inl (hplace (Mark.Ways.allowed (h ▸ ways_select n arms valued)).1)

end Construct

end LocLang
