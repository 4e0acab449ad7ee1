import LocLang.Proofs.ScopeHistory
import LocLang.ScopeTable
import Mathlib.Data.List.Forall2

namespace LocLang.ScopeTable

open List Scope

variable {α : Type} {t t' : ScopeTable α} {s : Scopes α} {name : String} {inner : List (Scope.Frame α)}
  {outer : Scope.Frame α}

/-- A declaration of scopes as an item. -/
def Item.ofEntry (e : Entry α) : Item α :=
  ⟨e.name, e.depth, e.value⟩

namespace Items

theorem get?_set (items : Items α) (item : Item α) (name : String) :
    (items.set item).get? name = if item.name = name then some item else items.get? name := by
  rw [get?, set, find?_cons]
  by_cases hname : item.name = name
  · simp [hname]
  · have hkept (other : Item α) : (other.name ≠ item.name ∧ other.name = name) ↔ other.name = name :=
      ⟨And.right, fun hother => ⟨fun heq => hname (heq ▸ hother), hother⟩⟩
    rw [if_neg hname, decide_eq_false hname, find?_filter]
    simp only [decide_eq_true_eq, hkept]
    rfl

/-- A name finds every item that has it. -/
theorem get?_of_mem {items : Items α} {item : Item α} (h : item ∈ items.list) : items.get? item.name = some item := by
  obtain ⟨list, hdistinct⟩ := items
  rw [get?]
  induction list with
  | nil => cases h
  | cons first _ ih =>
    rw [map_cons, nodup_cons] at hdistinct
    rcases mem_cons.1 h with rfl | h
    · simp
    · have hne : first.name ≠ item.name := fun heq => hdistinct.1 (heq ▸ mem_map_of_mem h)
      simp [hne, ih hdistinct.2 h]

/-- Whether items are the latest declarations of a frame. -/
def Represents (items : Items α) (frame : Scope.Frame α) : Prop :=
  ∀ name, items.get? name = (frame.get? name).map Item.ofEntry

theorem represents_empty : (empty : Items α).Represents [] := fun _ => rfl

theorem Represents.set {items : Items α} {frame : Scope.Frame α} (h : items.Represents frame) (e : Entry α) :
    (items.set (.ofEntry e)).Represents (e :: frame) := by
  intro name
  rw [get?_set, Frame.get?, find?_cons]
  by_cases hname : e.name = name
  · simp [hname, Item.ofEntry]
  · simpa [hname, Item.ofEntry, Frame.get?] using h name

end Items

/-- Whether the scopes from one outward are those of a stack, each with the depth that it has there. -/
inductive Frame.Represents : Frame α → List (Scope.Frame α) → Scope.Frame α → Prop where
  | base {items : Items α} {outer : Scope.Frame α} (hitems : items.Represents outer) :
      Represents (.base items 0) [] outer
  | nested {items : Items α} {parent : Frame α} {frame : Scope.Frame α} {inner : List (Scope.Frame α)}
      {outer : Scope.Frame α} (hitems : items.Represents frame) (hparent : Represents parent inner outer) :
      Represents (.nested items (inner.length + 1) parent) (frame :: inner) outer

namespace Frame.Represents

variable {f : Frame α}

theorem resolve?_eq (h : f.Represents inner outer) (name : String) :
    f.resolve? name = ((inner ++ [outer]).findSome? (·.get? name)).map Item.ofEntry := by
  induction h with
  | base hitems => simp [resolve?, hitems name]
  | @nested _ _ frame _ _ hitems _ ih =>
    rw [resolve?, hitems name, cons_append, findSome?_cons]
    cases frame.get? name with
    | some => rfl
    | none => exact ih

/-- No scope is deeper than the first one, so the way out may end early. -/
theorem atDepth?_eq (h : f.Represents inner outer) (name : String) (depth : Int) : f.atDepth? name depth =
    (if 0 ≤ depth ∧ depth ≤ inner.length then (inner ++ [outer])[inner.length - depth.toNat]?.bind (·.get? name)
      else none).map Item.ofEntry := by
  induction h with
  | @base _ _ hitems =>
    rw [atDepth?]
    by_cases hdepth : 0 = depth
    · subst hdepth
      simp [hitems name]
    · rw [if_neg hdepth, if_neg (by simp only [length_nil]; omega)]
      rfl
  | @nested _ parent frame inner _ hitems _ ih =>
    rw [atDepth?, length_cons, Int.natCast_succ]
    rcases Int.lt_trichotomy depth (inner.length + 1) with hless | rfl | hmore
    · rw [if_neg (by omega), if_neg (by omega), ih]
      by_cases hnonneg : 0 ≤ depth
      · rw [if_pos ⟨hnonneg, by omega⟩, if_pos ⟨hnonneg, by omega⟩]
        have hindex : inner.length + 1 - depth.toNat = inner.length - depth.toNat + 1 := by omega
        rw [hindex, cons_append, getElem?_cons_succ]
      · rw [if_neg (by omega), if_neg (by omega)]
    · -- A name that the scope does not have is looked up further out, where all depths are smaller.
      have houtside : parent.atDepth? name (inner.length + 1) = none := by
        rw [ih, if_neg (by omega)]
        rfl
      have hindex : inner.length + 1 - ((inner.length : Int) + 1).toNat = 0 := by omega
      rw [if_pos rfl, if_pos ⟨by omega, by omega⟩, hitems name, houtside, hindex]
      cases hget : frame.get? name <;> simp [hget]
    · rw [if_neg (by omega), if_pos hmore, if_neg (by omega)]
      rfl

end Frame.Represents

/-- Whether a table is a stack of scopes. -/
structure Represents (t : ScopeTable α) (s : Scopes α) : Prop where
  depth_eq : t.depth = s.depth
  current : t.current.Represents s.inner s.base

namespace Represents

theorem new : (new : ScopeTable α).Represents .empty :=
  ⟨rfl, .base Items.represents_empty⟩

theorem push (h : t.Represents s) : t.push.Represents s.push := by
  have hdepth : t.depth + 1 = (s.inner.length + 1 : Int) := by rw [h.depth_eq, Scopes.depth]
  refine ⟨?_, ?_⟩
  · simpa [ScopeTable.push, Scopes.push, Scopes.depth] using hdepth
  · rw [ScopeTable.push, hdepth]
    exact .nested Items.represents_empty h.current

theorem pop (h : t.Represents s) : t.pop.Represents s.pop := by
  obtain ⟨current, depth⟩ := t
  obtain ⟨inner, outer⟩ := s
  obtain ⟨hdepth, hcurrent⟩ := h
  cases hcurrent with
  | base hitems => exact ⟨hdepth, .base hitems⟩
  | nested _ hparent =>
    refine ⟨?_, hparent⟩
    simp only [Scopes.depth, length_cons, Int.natCast_succ] at hdepth
    simp only [ScopeTable.pop, Scopes.pop, Scopes.depth, tail_cons]
    omega

theorem declare (h : t.Represents s) (name : String) (a : α) : (t.declare name a).Represents (s.declare name a) := by
  obtain ⟨current, depth⟩ := t
  obtain ⟨inner, outer⟩ := s
  obtain ⟨rfl, hcurrent⟩ := h
  cases hcurrent with
  | base hitems => exact ⟨rfl, .base (hitems.set ⟨name, 0, a⟩)⟩
  | @nested _ _ _ inner _ hitems hparent =>
    exact ⟨rfl, .nested (hitems.set ⟨name, inner.length + 1, a⟩) hparent⟩

/-- The depth counts the nested scopes, so closing them comes to an end, with one of them left at most. -/
theorem exists_closeBlocks {f : Frame α} (h : f.Represents inner outer) :
    ∃ t, closeBlocks f inner.length = some t ∧ t.pop.Represents ⟨[], outer⟩ := by
  induction h with
  | base hitems => exact ⟨_, rfl, rfl, .base hitems⟩
  | @nested _ _ _ inner _ _ hparent ih =>
    rw [length_cons, Int.natCast_succ, closeBlocks]
    by_cases hmore : 1 < (inner.length + 1 : Int)
    · rw [if_pos hmore, Int.add_sub_cancel]
      exact ih
    · obtain rfl : inner = [] := eq_nil_of_length_eq_zero (by omega)
      exact ⟨_, if_neg hmore, rfl, hparent⟩

theorem exists_exitFunction (h : t.Represents s) : ∃ t', t.exitFunction = some t' ∧ t'.Represents s.exitFunction := by
  obtain ⟨t', hclose, hpop⟩ := exists_closeBlocks h.current
  refine ⟨t'.pop, ?_, ?_⟩
  · rw [exitFunction, h.depth_eq, Scopes.depth, hclose, Option.map_some]
  · rw [Scopes.exitFunction_eq_leave]
    exact hpop

theorem resolve?_eq (h : t.Represents s) (name : String) : t.resolve? name = (s.resolve? name).map Item.ofEntry :=
  h.current.resolve?_eq name

theorem declaredLocally?_eq (h : t.Represents s) (name : String) :
    t.declaredLocally? name = (s.declaredHere? name).map Item.ofEntry := by
  obtain ⟨current, depth⟩ := t
  obtain ⟨inner, outer⟩ := s
  obtain ⟨-, hcurrent⟩ := h
  cases hcurrent with
  | base hitems => exact hitems name
  | nested hitems => exact hitems name

theorem resolveAt?_eq (h : t.Represents s) (name : String) (depth : Int) :
    t.resolveAt? name depth = (s.resolveAt? name depth).map Item.ofEntry := by
  have hat (depth : Int) : t.current.atDepth? name depth = (s.atDepth? name depth).map Item.ofEntry :=
    h.current.atDepth?_eq name depth
  rw [resolveAt?, hat, hat, Scopes.resolveAt?]
  cases s.atDepth? name depth with
  | some => rfl
  | none => by_cases hdepth : 1 < depth <;> simp [hdepth]

end Represents

/-- What a step makes of a table, if it comes to an end. -/
def step (t : ScopeTable α) : Step α → Option (ScopeTable α)
  | .enterFunction | .pushBlock => some t.push
  | .exitFunction => t.exitFunction
  | .popBlock => some t.pop
  | .declare name value => some (t.declare name value)

/-- The table after a run of steps from the module alone, if all of them come to an end. -/
def after (steps : List (Step α)) : Option (ScopeTable α) :=
  steps.foldlM step new

theorem after_concat (steps : List (Step α)) (op : Step α) :
    after (steps ++ [op]) = (after steps).bind (·.step op) := by
  rw [after, foldlM_append]
  simp [after]

theorem Represents.exists_step (h : t.Represents s) (op : Step α) :
    ∃ t', t.step op = some t' ∧ t'.Represents (s.step op) := by
  cases op with
  | enterFunction | pushBlock => exact ⟨_, rfl, h.push⟩
  | exitFunction => exact h.exists_exitFunction
  | popBlock => exact ⟨_, rfl, h.pop⟩
  | declare name a => exact ⟨_, rfl, h.declare name a⟩

/-- Every run of steps comes to an end, with a table that is the stack of scopes after these steps. -/
theorem exists_after (steps : List (Step α)) : ∃ t, after steps = some t ∧ t.Represents (Scopes.after steps) := by
  induction steps using reverseRecOn with
  | nil => exact ⟨new, rfl, .new⟩
  | append_singleton _ op ih =>
    obtain ⟨t, hafter, ht⟩ := ih
    obtain ⟨t', hstep, ht'⟩ := ht.exists_step op
    refine ⟨t', ?_, ?_⟩
    · rw [after_concat, hafter]
      exact hstep
    · rw [Scopes.after_concat]
      exact ht'

/-- The scopes from one outward, each as its items and its depth. -/
def Frame.chain : Frame α → List (Items α × Int)
  | base items depth => [(items, depth)]
  | nested items depth parent => (items, depth) :: parent.chain

/-- The scopes from one outward have the depths down to 0, and the items of the stack. -/
theorem Frame.Represents.forall₂_chain {f : Frame α} (h : f.Represents inner outer) :
    Forall₂ (fun (scope : Items α × Int) (q : Scope.Frame α × Nat) => scope.1.Represents q.1 ∧ scope.2 = q.2) f.chain
      ((inner ++ [outer]).zip (range (inner.length + 1)).reverse) := by
  induction h with
  | base hitems => exact .cons ⟨hitems, rfl⟩ .nil
  | @nested _ _ frame inner _ hitems _ ih =>
    have hrange : (range ((frame :: inner).length + 1)).reverse = (inner.length + 1) ::
        (range (inner.length + 1)).reverse := by
      rw [length_cons, range_succ, reverse_append]
      rfl
    rw [hrange, cons_append, zip_cons_cons]
    exact .cons ⟨hitems, rfl⟩ ih

/-- The open scopes, innermost first. -/
def frames (t : ScopeTable α) : List (Items α × Int) :=
  t.current.chain

/-- Closing scopes keeps those outside as they are. -/
theorem frames_pop_suffix (t : ScopeTable α) : t.pop.frames <:+ t.frames := by
  obtain ⟨current, depth⟩ := t
  cases current with
  | base => exact suffix_rfl
  | nested => exact suffix_cons _ _

theorem frames_suffix_of_closeBlocks {f : Frame α} {depth : Int} (h : closeBlocks f depth = some t) :
    t.frames <:+ f.chain := by
  induction f generalizing depth with
  | base =>
    rw [closeBlocks] at h
    split at h <;> cases h
    exact suffix_rfl
  | nested _ _ _ ih =>
    rw [closeBlocks] at h
    split at h
    · exact (ih h).trans (suffix_cons _ _)
    · cases h
      exact suffix_rfl

theorem frames_suffix_of_exitFunction (h : t.exitFunction = some t') : t'.frames <:+ t.frames := by
  obtain ⟨t1, hclose, rfl⟩ := Option.map_eq_some_iff.1 h
  exact t1.frames_pop_suffix.trans (frames_suffix_of_closeBlocks hclose)

section After

variable {steps : List (Step α)}

/-- The open scopes of a table that is the stack after a run, paired with the depths from that of the table down to 0.
    -/
theorem Represents.forall₂_frames (ht : t.Represents (Scopes.after steps)) :
    Forall₂ (fun (scope : Items α × Int) (depth : Nat) => scope.1.Represents (Step.frame steps depth) ∧ scope.2 = depth)
      t.frames (range (Step.depth steps + 1)).reverse := by
  have hchain := ht.current.forall₂_chain
  have hlength : (Scopes.after steps).inner.length = Step.depth steps := Scopes.depth_after steps
  have hzip : ((range (Step.depth steps + 1)).map (Step.frame steps)).reverse.zip
      (range (Step.depth steps + 1)).reverse = (range (Step.depth steps + 1)).reverse.map fun depth =>
      (Step.frame steps depth, depth) := by
    rw [← map_reverse]
    simpa using zip_map' (f := Step.frame steps) (g := id) (l := (range (Step.depth steps + 1)).reverse)
  rw [← Scopes.frames, Scopes.frames_after, Scopes.framesUpTo, hlength, hzip, forall₂_map_right_iff] at hchain
  exact hchain

theorem depths_after (ht : t.Represents (Scopes.after steps)) :
    t.frames.map (·.2) = (range (Step.depth steps + 1)).reverse.map fun (depth : Nat) => (depth : Int) := by
  have hdepths := ht.forall₂_frames.imp fun _ _ h => h.2
  rw [← forall₂_eq_eq_eq, forall₂_map_left_iff, forall₂_map_right_iff]
  exact hdepths

/-- A scope has the last declaration of each name in it, and all its items have its depth. -/
theorem items_after (ht : t.Represents (Scopes.after steps)) {scope : Items α × Int} (hscope : scope ∈ t.frames) :
    (∀ name, scope.1.get? name = (Step.last? steps name scope.2.toNat).map Item.ofEntry) ∧
      ∀ item ∈ scope.1.list, item.depth = scope.2 := by
  obtain ⟨depth, hitems, hdepth⟩ : ∃ depth : Nat, scope.1.Represents (Step.frame steps depth) ∧ scope.2 = depth := by
    obtain ⟨i, hi, rfl⟩ := getElem_of_mem hscope
    exact ⟨_, ht.forall₂_frames.get hi (ht.forall₂_frames.length_eq ▸ hi)⟩
  have hget (name : String) : scope.1.get? name = (Step.last? steps name scope.2.toNat).map Item.ofEntry := by
    rw [hitems name, Step.get?_frame, hdepth, Int.toNat_natCast]
  refine ⟨hget, fun item hitem => ?_⟩
  have hfound := hget item.name
  rw [Items.get?_of_mem hitem] at hfound
  obtain ⟨e, he, rfl⟩ := Option.map_eq_some_iff.1 hfound.symm
  rw [Item.ofEntry, Step.depth_of_last? he, hdepth, Int.toNat_natCast]

theorem resolveAt?_after (ht : t.Represents (Scopes.after steps)) (name : String) (depth : Nat) :
    t.resolveAt? name depth = ((Step.last? steps name depth).or
    (if 1 < depth then Step.last? steps name 1 else none)).map Item.ofEntry := by
  have hone := Scopes.atDepth?_after steps name 1
  rw [ht.resolveAt?_eq, Scopes.resolveAt?, Scopes.atDepth?_after]
  by_cases hdepth : 1 < depth
  · rw [if_pos hdepth, if_pos (by omega), ← hone]
    rfl
  · rw [if_neg hdepth, if_neg (by omega)]

/-- A function that is left leaves the scope of the module, as it is. -/
theorem frames_of_exitFunction (h : t.Represents s) (hexit : t.exitFunction = some t') :
    t'.frames = t.frames.getLast?.toList ∧ t'.depth = 0 := by
  obtain ⟨t1, hexit', ht1⟩ := h.exists_exitFunction
  obtain rfl : t' = t1 := Option.some.inj (hexit.symm.trans hexit')
  rw [Scopes.exitFunction_eq_leave] at ht1
  obtain ⟨before, hsuffix⟩ := frames_suffix_of_exitFunction hexit
  obtain ⟨current, depth⟩ := t'
  obtain ⟨hdepth, hcurrent⟩ := ht1
  cases hcurrent with
  | @base _ _ _ =>
    refine ⟨?_, hdepth⟩
    rw [← hsuffix, frames, Frame.chain, getLast?_append]
    rfl

end After

/-- A table of linked scopes, each with a record of its depth, is a stack of finite maps. Every run of steps comes to
    an end. The open scopes have the depths from that of the table down to 0, and each has the last declaration of every
    name in it, with its own depth. Names are looked up in the innermost scope that has them, or at a given depth. A
    function that is left leaves the scope of the module as it is, and a scope that is opened and closed again, with
    balanced steps between, changes no answer. -/
theorem stack_of_maps_after (steps : List (Step α)) : ∃ t, after steps = some t ∧ t.depth = Step.depth steps ∧
    t.frames.map (·.2) = ((range (Step.depth steps + 1)).reverse.map fun (depth : Nat) => (depth : Int)) ∧
    (∀ scope ∈ t.frames, (∀ name, scope.1.get? name = (Step.last? steps name scope.2.toNat).map Item.ofEntry) ∧
      ∀ item ∈ scope.1.list, item.depth = scope.2) ∧
    (∀ name, t.resolve? name =
      ((range (Step.depth steps + 1)).reverse.findSome? (Step.last? steps name)).map Item.ofEntry) ∧
    (∀ name (depth : Nat), t.resolveAt? name depth =
      ((Step.last? steps name depth).or (if 1 < depth then Step.last? steps name 1 else none)).map Item.ofEntry) ∧
    (∀ name (depth : Int), depth < 0 → t.resolveAt? name depth = none) ∧
    (∃ t', after (steps ++ [.exitFunction]) = some t' ∧ t'.frames = t.frames.getLast?.toList ∧ t'.depth = 0) ∧
    ∀ opening inner, Step.opens opening → Step.Balanced inner →
      ∃ t', after (steps ++ opening :: (inner ++ [.popBlock])) = some t' ∧ ∀ name, t'.resolve? name = t.resolve? name ∧
        ∀ depth, t'.resolveAt? name depth = t.resolveAt? name depth := by
  obtain ⟨t, hafter, ht⟩ := exists_after steps
  refine ⟨t, hafter, by rw [ht.depth_eq, Scopes.depth_after], depths_after ht, fun scope => items_after ht,
    fun name => by rw [ht.resolve?_eq, Scopes.resolve?_after], resolveAt?_after ht, fun name depth hdepth => ?_, ?_,
    fun opening inner hopening hinner => ?_⟩
  · rw [ht.resolveAt?_eq, Scopes.resolveAt?, Scopes.atDepth?, if_neg (by omega), if_neg (by omega)]
    rfl
  · obtain ⟨t', hexit, -⟩ := ht.exists_exitFunction
    refine ⟨t', ?_, frames_of_exitFunction ht hexit⟩
    rw [after_concat, hafter]
    exact hexit
  · obtain ⟨t', hafter', ht'⟩ := exists_after (steps ++ opening :: (inner ++ [.popBlock]))
    rw [Scopes.after_balanced steps hopening hinner] at ht'
    refine ⟨t', hafter', fun name => ⟨?_, fun depth => ?_⟩⟩
    · rw [ht'.resolve?_eq, ht.resolve?_eq]
    · rw [ht'.resolveAt?_eq, ht.resolveAt?_eq]

/-- A block inside a function, after a function with an unclosed block and a stray closing. -/
def straySteps : List (Step Nat) :=
  [.popBlock, .declare "a" 0, .enterFunction, .declare "x" 1, .pushBlock, .exitFunction, .enterFunction, .declare "a" 2]

/-- A block that declares a name of the function around it, and opens a block of its own. -/
def hidingSteps : List (Step Nat) :=
  [.declare "a" 3, .pushBlock, .declare "a" 4, .popBlock, .declare "x" 5]

theorem stack_of_maps_after_stray : Step.Balanced hidingSteps ∧ ∃ t, after straySteps = some t ∧
    t.resolve? "a" = some ⟨"a", 1, 2⟩ ∧ t.resolve? "x" = none ∧
    ∃ t', after (straySteps ++ .pushBlock :: (hidingSteps ++ [.popBlock])) = some t' ∧
      t'.resolve? "a" = some ⟨"a", 1, 2⟩ := by
  have hbalanced : Step.Balanced hidingSteps := by decide
  obtain ⟨t, hafter, -, -, -, hresolve, -, -, -, hrestored⟩ := stack_of_maps_after straySteps
  obtain ⟨t', hafter', hsame⟩ := hrestored .pushBlock hidingSteps rfl hbalanced
  have hfound : t.resolve? "a" = some ⟨"a", 1, 2⟩ := by
    rw [hresolve]
    decide
  refine ⟨hbalanced, t, hafter, hfound, ?_, t', hafter', (hsame "a").1.trans hfound⟩
  rw [hresolve]
  decide

end LocLang.ScopeTable
