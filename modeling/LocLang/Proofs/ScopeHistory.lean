import LocLang.Proofs.Scopes
import Mathlib.Data.List.Basic
import Mathlib.Data.List.Induction
import Mathlib.Data.List.Infix

namespace LocLang

open List

variable {α : Type}

/-- What is done to scopes. -/
inductive Scope.Step (α : Type) where
  | enterFunction
  | exitFunction
  | pushBlock
  | popBlock
  | declare (name : String) (value : α)
deriving DecidableEq, Repr

namespace Scope.Step

/-- The depth after a step. Nothing is closer to the outside than the module. -/
def nextDepth (depth : Nat) : Step α → Nat
  | enterFunction | pushBlock => depth + 1
  | exitFunction => 0
  | popBlock => depth - 1
  | declare _ _ => depth

def depth (steps : List (Step α)) : Nat :=
  steps.foldl nextDepth 0

@[simp]
theorem depth_concat (steps : List (Step α)) (step : Step α) :
    depth (steps ++ [step]) = step.nextDepth (depth steps) := by
  simp [depth]

def declaration? : Step α → Option (String × α)
  | declare name value => some (name, value)
  | _ => none

/-- Whether the step of the given number is done in a frame of the given depth that is still open after all steps: no
    step from there on leads out of the frame. -/
def Lives (steps : List (Step α)) (frame i : Nat) : Prop :=
  depth (steps.take i) = frame ∧ ∀ j ≤ steps.length, i ≤ j → frame ≤ depth (steps.take j)

instance (steps : List (Step α)) (frame i : Nat) : Decidable (Lives steps frame i) :=
  inferInstanceAs (Decidable (_ ∧ _))

/-- What is declared in the open frame of the given depth, in the order of declaration. -/
def declared (steps : List (Step α)) (frame : Nat) : List (String × α) :=
  steps.zipIdx.filterMap fun q => if Lives steps frame q.2 then q.1.declaration? else none

/-- The last declaration of a name in the open frame of the given depth. There is none if no frame of that depth is
    open. -/
def last? (steps : List (Step α)) (name : String) (frame : Nat) : Option (Entry α) :=
  ((declared steps frame).filter (·.1 = name)).getLast?.map fun q => ⟨name, frame, q.2⟩

theorem depth_of_last? {steps : List (Step α)} {name : String} {frame : Nat} {e : Entry α}
    (h : last? steps name frame = some e) : e.depth = frame := by
  obtain ⟨q, -, rfl⟩ := Option.map_eq_some_iff.1 h
  rfl

def opens : Step α → Bool
  | enterFunction | pushBlock => true
  | _ => false

def closes : Step α → Bool
  | popBlock => true
  | _ => false

/-- Whether steps close exactly the scopes that they open, and never one that was open before. -/
structure Balanced (steps : List (Step α)) : Prop where
  no_exit : ∀ step ∈ steps, step ≠ .exitFunction
  above : ∀ before, before <+: steps → before.countP closes ≤ before.countP opens
  level : steps.countP closes = steps.countP opens

instance [DecidableEq α] (steps : List (Step α)) : Decidable (Balanced steps) :=
  decidable_of_iff
    ((∀ step ∈ steps, step ≠ .exitFunction) ∧ (∀ before ∈ steps.inits, before.countP closes ≤ before.countP opens) ∧
      steps.countP closes = steps.countP opens)
    ⟨fun h => ⟨h.1, fun before hbefore => h.2.1 before ((mem_inits before steps).2 hbefore), h.2.2⟩,
      fun h => ⟨h.no_exit, fun before hbefore => h.above before ((mem_inits before steps).1 hbefore), h.level⟩⟩

section Lives

variable {steps : List (Step α)} {step : Step α} {frame i : Nat}

theorem Lives.le_depth (h : Lives steps frame i) (hi : i ≤ steps.length) : frame ≤ depth steps := by
  have hlast := h.2 steps.length (Nat.le_refl _) hi
  rwa [take_length] at hlast

/-- One more step closes the frame, or leaves it open. -/
theorem lives_concat (hi : i ≤ steps.length) :
    Lives (steps ++ [step]) frame i ↔ Lives steps frame i ∧ frame ≤ step.nextDepth (depth steps) := by
  have htake {j : Nat} (hj : j ≤ steps.length) : (steps ++ [step]).take j = steps.take j :=
    take_append_of_le_length hj
  have hlength : (steps ++ [step]).length = steps.length + 1 := length_append
  constructor
  · rintro ⟨hdepth, hopen⟩
    rw [htake hi] at hdepth
    refine ⟨⟨hdepth, fun j hj hij => ?_⟩, ?_⟩
    · rw [← htake hj]
      exact hopen j (by omega) hij
    · have hlast := hopen (steps.length + 1) (by omega) (by omega)
      rwa [take_of_length_le (by omega), depth_concat] at hlast
  · rintro ⟨⟨hdepth, hopen⟩, hlast⟩
    refine ⟨htake hi ▸ hdepth, fun j hj hij => ?_⟩
    by_cases hle : j ≤ steps.length
    · rw [htake hle]
      exact hopen j hle hij
    · rwa [take_of_length_le (by omega), depth_concat]

/-- The last step is done in the innermost frame. -/
theorem lives_length : Lives steps frame steps.length ↔ depth steps = frame := by
  rw [Lives, take_length]
  constructor
  · exact And.left
  · intro hdepth
    refine ⟨hdepth, fun j hj hle => ?_⟩
    rw [take_of_length_le hle]
    exact Nat.le_of_eq hdepth.symm

end Lives

/-- What one more step does to a frame: it closes it, or adds what it declares if the frame is the innermost one. -/
theorem declared_concat (steps : List (Step α)) (step : Step α) (frame : Nat) : declared (steps ++ [step]) frame =
      if frame ≤ step.nextDepth (depth steps) then
        declared steps frame ++ (if depth steps = frame then step.declaration?.toList else [])
      else [] := by
  have hearlier : steps.zipIdx.filterMap (fun q => if Lives (steps ++ [step]) frame q.2 then q.1.declaration? else none)
      = if frame ≤ step.nextDepth (depth steps) then declared steps frame else [] := by
    have hlives {q : Step α × Nat} (hq : q ∈ steps.zipIdx) :
        Lives (steps ++ [step]) frame q.2 ↔ Lives steps frame q.2 ∧ frame ≤ step.nextDepth (depth steps) :=
      lives_concat (by have := mem_zipIdx hq; omega)
    split
    · next hopen =>
      refine filterMap_congr fun q hq => ?_
      simp [hlives hq, hopen]
    · next hclosed =>
      rw [filterMap_eq_nil_iff]
      intro q hq
      simp [hlives hq, hclosed]
  rw [declared, zipIdx_append, filterMap_append, hearlier]
  simp only [Nat.zero_add, zipIdx_singleton, filterMap_cons, filterMap_nil,
    lives_concat (Nat.le_refl steps.length), lives_length]
  by_cases hopen : frame ≤ step.nextDepth (depth steps)
  · simp only [hopen, and_true, if_true]
    by_cases hframe : depth steps = frame
    · rw [if_pos hframe, if_pos hframe]
      cases step.declaration? <;> rfl
    · rw [if_neg hframe, if_neg hframe]
  · simp [hopen]

/-- Nothing is declared in a frame that is not open. -/
theorem declared_eq_nil {steps : List (Step α)} {frame : Nat} (h : depth steps < frame) :
    declared steps frame = [] := by
  rw [declared, filterMap_eq_nil_iff]
  intro q hq
  have hnot : ¬Lives steps frame q.2 := by
    intro hlives
    have hle := hlives.le_depth (by have := mem_zipIdx hq; omega)
    omega
  rw [if_neg hnot]

def frame (steps : List (Step α)) (depth : Nat) : Frame α :=
  ((declared steps depth).map fun q => ⟨q.1, depth, q.2⟩).reverse

theorem frame_eq_nil {steps : List (Step α)} {d : Nat} (h : depth steps < d) : frame steps d = [] := by
  rw [frame, declared_eq_nil h]
  rfl

/-- A step that leaves a frame open and declares nothing does not change it. -/
theorem frame_concat {step : Step α} (hstep : step.declaration? = none) {steps : List (Step α)} {d : Nat}
    (hd : d ≤ step.nextDepth (depth steps)) : frame (steps ++ [step]) d = frame steps d := by
  simp [frame, declared_concat, hd, hstep]

theorem frame_concat_declare (name : String) (a : α) {steps : List (Step α)} {d : Nat} (hd : d ≤ depth steps) :
    frame (steps ++ [declare name a]) d = if depth steps = d then ⟨name, d, a⟩ :: frame steps d else frame steps d := by
  rw [frame, declared_concat, nextDepth, if_pos hd]
  split
  · simp [frame, declaration?]
  · rw [append_nil, frame]

theorem get?_frame (steps : List (Step α)) (name : String) (depth : Nat) :
    (frame steps depth).get? name = last? steps name depth := by
  rw [frame, Frame.get?, last?, ← head?_filter, filter_reverse, head?_reverse, filter_map,
    getLast?_map]
  refine Option.map_congr fun q hq => ?_
  have hname := mem_of_getLast? hq
  simp only [mem_filter, Function.comp_apply, decide_eq_true_eq] at hname
  rw [hname.2]

end Scope.Step

namespace Scopes

open Scope

def step (s : Scopes α) : Step α → Scopes α
  | .enterFunction | .pushBlock => s.push
  | .exitFunction => s.exitFunction
  | .popBlock => s.pop
  | .declare name value => s.declare name value

/-- Scopes after a run of steps from the module alone. -/
def after (steps : List (Step α)) : Scopes α :=
  steps.foldl step .empty

theorem after_concat (steps : List (Step α)) (op : Step α) : after (steps ++ [op]) = (after steps).step op := by
  simp [after]

theorem depth_step (s : Scopes α) (op : Step α) : (s.step op).depth = op.nextDepth s.depth := by
  cases op with
  | exitFunction => rw [step, exitFunction_eq_leave]; rfl
  | popBlock => exact length_tail
  | declare name a => exact depth_declare s name a
  | _ => rfl

@[simp]
theorem depth_after (steps : List (Step α)) : (after steps).depth = Step.depth steps := by
  induction steps using reverseRecOn with
  | nil => rfl
  | append_singleton _ _ ih => rw [after_concat, depth_step, ih, Step.depth_concat]

@[simp]
theorem frames_push (s : Scopes α) : s.push.frames = [] :: s.frames := rfl

theorem getLast?_frames (s : Scopes α) : s.frames.getLast? = some s.base := by
  simp [frames]

theorem frames_pop (s : Scopes α) : s.pop.frames = if s.depth = 0 then s.frames else s.frames.tail := by
  obtain ⟨inner, base⟩ := s
  cases inner with
  | nil | cons => rfl

theorem frames_declare {s : Scopes α} {innermost : Frame α} {others : List (Frame α)}
    (h : s.frames = innermost :: others) (name : String) (a : α) :
    (s.declare name a).frames = (⟨name, s.depth, a⟩ :: innermost) :: others := by
  obtain ⟨inner, base⟩ := s
  cases inner with
  | nil | cons =>
    cases h
    rfl

section After

/-- The frames of the given depth and of all smaller ones, innermost first. -/
def framesUpTo (steps : List (Step α)) (depth : Nat) : List (Frame α) :=
  ((range (depth + 1)).map (Step.frame steps)).reverse

variable {steps : List (Step α)}

theorem framesUpTo_succ (depth : Nat) : framesUpTo steps (depth + 1) = Step.frame steps (depth + 1) ::
    framesUpTo steps depth := by
  simp [framesUpTo, range_succ]

theorem framesUpTo_congr {steps' : List (Step α)} {depth : Nat}
    (h : ∀ d ≤ depth, Step.frame steps' d = Step.frame steps d) : framesUpTo steps' depth = framesUpTo steps depth := by
  rw [framesUpTo, map_congr_left fun d hd => h d (by have := mem_range.1 hd; omega), framesUpTo]

/-- A declaration changes the innermost frame. -/
theorem framesUpTo_declare (steps : List (Step α)) (name : String) (a : α) :
    ∃ others, framesUpTo steps (Step.depth steps) = Step.frame steps (Step.depth steps) :: others ∧
      framesUpTo (steps ++ [.declare name a]) (Step.depth steps) =
        (⟨name, Step.depth steps, a⟩ :: Step.frame steps (Step.depth steps)) :: others := by
  have hinnermost := Step.frame_concat_declare name a (Nat.le_refl (Step.depth steps))
  rw [if_pos rfl] at hinnermost
  cases hdepth : Step.depth steps with
  | zero =>
    rw [hdepth] at hinnermost
    exact ⟨[], rfl, congrArg (fun frame => [frame]) hinnermost⟩
  | succ depth =>
    have hothers : framesUpTo (steps ++ [.declare name a]) depth = framesUpTo steps depth := by
      refine framesUpTo_congr fun d hd => ?_
      rw [Step.frame_concat_declare name a (by omega), if_neg (by omega)]
    rw [hdepth] at hinnermost
    exact ⟨framesUpTo steps depth, framesUpTo_succ depth, by rw [framesUpTo_succ, hinnermost, hothers]⟩

/-- The frames after a run of steps: one for each depth down to the module's. -/
theorem frames_after (steps : List (Step α)) : (after steps).frames = framesUpTo steps (Step.depth steps) := by
  induction steps using reverseRecOn with
  | nil => rfl
  | append_singleton steps op ih =>
    rw [after_concat, Step.depth_concat]
    by_cases hop : op.declaration? = none
    · rw [framesUpTo_congr fun d hd => Step.frame_concat hop hd]
      have hpush : (after steps).push.frames = framesUpTo steps (Step.depth steps + 1) := by
        rw [framesUpTo_succ, Step.frame_eq_nil (Nat.lt_succ_self _), frames_push, ih]
      cases op with
      | enterFunction | pushBlock => exact hpush
      | exitFunction =>
        have hbase := getLast?_frames (after steps)
        rw [ih, framesUpTo, getLast?_reverse, head?_map, head?_range, if_neg (Nat.succ_ne_zero _)] at hbase
        rw [step, exitFunction_eq_leave]
        exact congrArg (fun frame => [frame]) (Option.some.inj hbase).symm
      | popBlock =>
        rw [step, frames_pop, depth_after, ih, Step.nextDepth]
        cases Step.depth steps with
        | zero => rfl
        | succ => rw [if_neg (Nat.succ_ne_zero _), framesUpTo_succ, tail_cons, Nat.add_sub_cancel]
      | declare => cases hop
    · cases op with
      | declare name a =>
        obtain ⟨others, hframes, hnext⟩ := framesUpTo_declare steps name a
        rw [step, Step.nextDepth, hnext, frames_declare (ih.trans hframes) name a, depth_after]
      | _ => exact absurd rfl hop

theorem getElem?_frames_after (steps : List (Step α)) {i : Nat} (hi : i ≤ Step.depth steps) :
    (after steps).frames[i]? = some (Step.frame steps (Step.depth steps - i)) := by
  rw [frames_after, framesUpTo, List.getElem?_reverse (by simpa using Nat.lt_succ_of_le hi)]
  simp only [length_map, length_range, List.getElem?_map, Nat.add_sub_cancel]
  rw [List.getElem?_range (by omega), Option.map_some]

/-- A name refers to its last declaration in the innermost frame that has one. -/
theorem resolve?_after (steps : List (Step α)) (name : String) :
    (after steps).resolve? name = (range (Step.depth steps + 1)).reverse.findSome? (Step.last? steps name) := by
  rw [resolve?, frames_after, framesUpTo, ← map_reverse, findSome?_map]
  congr 1
  funext depth
  exact Step.get?_frame steps name depth

/-- The scope of a given depth has the last declaration there. -/
theorem atDepth?_after (steps : List (Step α)) (name : String) (depth : Nat) :
    (after steps).atDepth? name depth = Step.last? steps name depth := by
  rw [atDepth?, depth_after]
  by_cases hdepth : depth ≤ Step.depth steps
  · rw [if_pos (by omega), getElem?_frames_after steps (by omega), Option.bind_some, Step.get?_frame, Int.toNat_natCast,
      Nat.sub_sub_self hdepth]
  · rw [if_neg (by omega), Step.last?, Step.declared_eq_nil (by omega)]
    rfl

end After

section Balanced

variable {inner : List (Step α)}

/-- Scopes with more frames inside: an innermost one and others. -/
def within (s : Scopes α) (innermost : Frame α) (others : List (Frame α)) : Scopes α :=
  { s with inner := innermost :: (others ++ s.inner) }

theorem exists_step_within (s : Scopes α) (innermost : Frame α) (others : List (Frame α)) {op : Step α}
    (hexit : op ≠ .exitFunction) (hclose : [op].countP Step.closes ≤ others.length + [op].countP Step.opens) :
    ∃ innermost' others', (s.within innermost others).step op = s.within innermost' others' ∧
      others'.length + [op].countP Step.closes = others.length + [op].countP Step.opens := by
  cases op with
  | enterFunction | pushBlock => exact ⟨[], innermost :: others, rfl, rfl⟩
  | exitFunction => exact absurd rfl hexit
  | popBlock =>
    cases others with
    | nil => exact absurd hclose (Nat.not_succ_le_zero 0)
    | cons next others => exact ⟨next, others, rfl, rfl⟩
  | declare => exact ⟨_, others, rfl, rfl⟩

/-- Steps that close no more scopes than were open inside never reach the scopes outside. -/
theorem exists_foldl_step_within (s : Scopes α) (hexit : ∀ op ∈ inner, op ≠ .exitFunction)
    (innermost : Frame α) (others : List (Frame α))
    (habove : ∀ before, before <+: inner → before.countP Step.closes ≤ others.length + before.countP Step.opens) :
    ∃ innermost' others', inner.foldl step (s.within innermost others) = s.within innermost' others' ∧
      others'.length + inner.countP Step.closes = others.length + inner.countP Step.opens := by
  induction inner generalizing innermost others with
  | nil => exact ⟨innermost, others, rfl, rfl⟩
  | cons op inner ih =>
    obtain ⟨next, others', hstep, hcount⟩ := exists_step_within s innermost others
      (hexit op mem_cons_self) (habove [op] (prefix_append [op] inner))
    have habove' (before : List (Step α)) (hbefore : before <+: inner) :
        before.countP Step.closes ≤ others'.length + before.countP Step.opens := by
      have h := habove ([op] ++ before) ((prefix_append_right_inj [op]).2 hbefore)
      rw [countP_append, countP_append] at h
      omega
    obtain ⟨last, others'', hrun, hrest⟩ := ih (fun op' hop' => hexit op' (mem_cons_of_mem op hop'))
        next others' habove'
    refine ⟨last, others'', by rw [foldl_cons, hstep, hrun], ?_⟩
    rw [← singleton_append, countP_append, countP_append]
    omega

/-- A scope that is opened and closed again, with balanced steps between, leaves no trace. -/
theorem after_balanced (steps : List (Step α)) {opening : Step α} (hopening : opening.opens)
    (hinner : Step.Balanced inner) : after (steps ++ opening :: (inner ++ [.popBlock])) = after steps := by
  have hopen : (after steps).step opening = (after steps).within [] [] := by
    cases opening with
    | enterFunction | pushBlock => rfl
    | _ => cases hopening
  obtain ⟨innermost, others, hrun, hcount⟩ := exists_foldl_step_within (after steps) hinner.no_exit [] []
    fun before hbefore => Nat.le_trans (hinner.above before hbefore) (Nat.le_add_left _ _)
  obtain rfl : others = [] := by
    rw [hinner.level, length_nil] at hcount
    exact eq_nil_of_length_eq_zero (by omega)
  have hlast : after (steps ++ opening :: (inner ++ [.popBlock])) =
      (inner.foldl step ((after steps).step opening)).step .popBlock := by
    simp [after]
  rw [hlast, hopen, hrun]
  rfl

end Balanced

end Scopes

end LocLang
