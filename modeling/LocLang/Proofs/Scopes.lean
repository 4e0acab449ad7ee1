import LocLang.Scope

namespace LocLang

open Scope.Frame List

theorem find?_of_nodup_key {α κ : Type} [DecidableEq κ] (key : α → κ) {l : List α} (hnodup : (l.map key).Nodup)
    {a : α} (ha : a ∈ l) : l.find? (key · = key a) = some a := by
  induction l with
  | nil => cases ha
  | cons b _ ih =>
    rw [map_cons, nodup_cons] at hnodup
    rcases mem_cons.1 ha with rfl | ha
    · simp
    · have hne : key b ≠ key a := fun h => hnodup.1 (h ▸ mem_map_of_mem ha)
      rw [find?_cons_of_neg (by simpa using hne)]
      exact ih hnodup.2 ha

namespace Scopes

variable {α : Type} {s : Scopes α} {name : String} {t : Scopes α}

/-- Whether scopes differ in the innermost one only, which is not the module. -/
structure SameOutside (s t : Scopes α) : Prop where
  open_left : s.inner ≠ []
  open_right : t.inner ≠ []
  pop_eq : t.pop = s.pop

theorem SameOutside.refl (hopen : s.inner ≠ []) : s.SameOutside s :=
  ⟨hopen, hopen, rfl⟩

theorem SameOutside.trans {u : Scopes α} (h : s.SameOutside t) (h' : t.SameOutside u) : s.SameOutside u :=
  ⟨h.open_left, h'.open_right, h'.pop_eq.trans h.pop_eq⟩

theorem push_inner_ne_nil (s : Scopes α) : s.push.inner ≠ [] := by
  simp [push]

theorem sameOutside_declare (hopen : s.inner ≠ []) (name : String) (a : α) : s.SameOutside (s.declare name a) := by
  obtain ⟨inner, base⟩ := s
  cases inner with
  | nil => exact absurd rfl hopen
  | cons => exact ⟨by simp, by simp [declare], rfl⟩

theorem flatten_declare (hopen : s.inner ≠ []) (name : String) (a : α) :
    (s.declare name a).inner.flatten = ⟨name, s.depth, a⟩ :: s.inner.flatten := by
  obtain ⟨inner, base⟩ := s
  cases inner with
  | nil => exact absurd rfl hopen
  | cons => rfl

@[simp]
theorem depth_declare (s : Scopes α) (name : String) (a : α) : (s.declare name a).depth = s.depth := by
  obtain ⟨inner, base⟩ := s
  cases inner with
  | nil | cons => rfl

theorem SameOutside.pop_eq_of_push (h : s.push.SameOutside t) : t.pop = s :=
  h.pop_eq

theorem SameOutside.base_eq (h : s.SameOutside t) : t.base = s.base :=
  show t.pop.base = s.pop.base from congrArg base h.pop_eq

theorem leave_eq_self (h : s.inner = []) : s.leave = s := by
  obtain ⟨inner, base⟩ := s
  obtain rfl : inner = [] := h
  rfl

theorem inner_closeBlocks (s : Scopes α) (depth : Nat) : (s.closeBlocks depth).inner = s.inner.drop (depth - 1) := by
  induction depth using Nat.strongRecOn generalizing s with
  | ind depth ih =>
    match depth with
    | 0 | 1 => rfl
    | depth + 2 =>
      rw [closeBlocks, ih (depth + 1) (Nat.lt_succ_self _), pop, ← drop_one, drop_drop]
      congr 1
      omega

theorem base_closeBlocks (s : Scopes α) (depth : Nat) : (s.closeBlocks depth).base = s.base := by
  induction depth using Nat.strongRecOn generalizing s with
  | ind depth ih =>
    match depth with
    | 0 | 1 => rfl
    | depth + 2 => exact ih (depth + 1) (Nat.lt_succ_self _) s.pop

/-- Closing the scopes of a function one by one leaves the module alone, however many of them are open. -/
@[simp]
theorem exitFunction_eq_leave (s : Scopes α) : s.exitFunction = s.leave := by
  have hinner : (s.closeBlocks s.depth).inner.tail = [] := by
    rw [inner_closeBlocks, tail_drop, drop_eq_nil_iff, depth]
    omega
  rw [exitFunction, pop, hinner, leave, ← base_closeBlocks s s.depth]

theorem declaredHere?_declare (s : Scopes α) (name : String) (a : α) (other : String) :
      (s.declare name a).declaredHere? other = if name = other then some ⟨name, s.depth, a⟩ else
      s.declaredHere? other := by
  obtain ⟨inner, base⟩ := s
  cases inner with
  | nil => by_cases h : name = other <;> simp [declare, declaredHere?, get?, h]
  | cons =>
    by_cases h : name = other <;> simp [declare, declaredHere?, get?, h]

theorem resolve?_declare (s : Scopes α) (name : String) (a : α) (other : String) : (s.declare name a).resolve? other =
      if name = other then some ⟨name, s.depth, a⟩ else s.resolve? other := by
  obtain ⟨inner, base⟩ := s
  cases inner with
  | nil =>
    by_cases h : name = other <;> simp [declare, resolve?, frames, get?, h]
  | cons =>
    by_cases h : name = other <;> simp [declare, resolve?, frames, get?, findSome?_cons, h]

/-- Declarations of other names do not change what a name refers to. -/
theorem resolve?_foldl_declare {β : Type} (name : β → String) (value : β → α) {l : List β} {other : String}
    (hother : other ∉ l.map name) : (l.foldl (fun s b => s.declare (name b) (value b)) s).resolve? other =
    s.resolve? other := by
  induction l generalizing s with
  | nil => rfl
  | cons _ _ ih =>
    rw [map_cons, mem_cons, not_or] at hother
    rw [foldl_cons, ih hother.2, resolve?_declare, if_neg (Ne.symm hother.1)]

/-- Whether a name refers to the given thing. -/
def Finds (s : Scopes α) (name : String) (a : α) : Prop :=
  ∃ entry, s.resolve? name = some entry ∧ entry.value = a

theorem Finds.unique {a b : α} (ha : s.Finds name a) (hb : s.Finds name b) : a = b := by
  obtain ⟨entry, hentry, rfl⟩ := ha
  obtain ⟨entry', hentry', rfl⟩ := hb
  rw [hentry] at hentry'
  cases hentry'
  rfl

@[simp]
theorem finds_push {a : α} : s.push.Finds name a ↔ s.Finds name a :=
  Iff.rfl

theorem finds_declare {a : α} {other : String} {b : α} :
    (s.declare name a).Finds other b ↔ if name = other then b = a else s.Finds other b := by
  rw [Finds, resolve?_declare]
  by_cases h : name = other
  · simp [h, eq_comm]
  · simp [h, Finds]

end Scopes

section Map

variable {α β : Type} (f : α → β)

/-- The same declaration of another thing. -/
def Scope.Entry.map (entry : Scope.Entry α) : Scope.Entry β :=
  ⟨entry.name, entry.depth, f entry.value⟩

theorem Scope.Frame.get?_map (frame : Scope.Frame α) (name : String) :
    get? (frame.map (·.map f)) name = (frame.get? name).map (·.map f) :=
  find?_map

namespace Scopes

/-- The same scopes with other things declared in them. -/
def map (s : Scopes α) : Scopes β :=
  ⟨s.inner.map (·.map (·.map f)), s.base.map (·.map f)⟩

theorem map_map {γ : Type} (g : β → γ) (s : Scopes α) : (s.map f).map g = s.map fun a => g (f a) := by
  simp [map, Scope.Entry.map, Function.comp_def]

@[simp]
theorem depth_map (s : Scopes α) : (s.map f).depth = s.depth := by
  simp [depth, map]

@[simp]
theorem map_push (s : Scopes α) : s.push.map f = (s.map f).push := rfl

@[simp]
theorem map_pop (s : Scopes α) : s.pop.map f = (s.map f).pop := by
  simp [pop, map, map_tail]

@[simp]
theorem map_leave (s : Scopes α) : s.leave.map f = (s.map f).leave := rfl

@[simp]
theorem map_declare (s : Scopes α) (name : String) (a : α) :
    (s.declare name a).map f = (s.map f).declare name (f a) := by
  obtain ⟨inner, base⟩ := s
  cases inner with
  | nil => rfl
  | cons => simp [declare, map, depth, Scope.Entry.map]

theorem declaredHere?_map (s : Scopes α) (name : String) :
    (s.map f).declaredHere? name = (s.declaredHere? name).map (·.map f) := by
  obtain ⟨inner, base⟩ := s
  cases inner with
  | nil => exact get?_map f base name
  | cons frame => exact get?_map f frame name

theorem frames_map (s : Scopes α) : (s.map f).frames = s.frames.map (·.map (·.map f)) := by
  simp [frames, map]

theorem resolve?_map (s : Scopes α) (name : String) : (s.map f).resolve? name = (s.resolve? name).map (·.map f) := by
  rw [resolve?, resolve?, frames_map, findSome?_map, map_findSome?]
  congr 1
  funext frame
  exact get?_map f frame name

theorem atDepth?_map (s : Scopes α) (name : String) (depth : Int) :
    (s.map f).atDepth? name depth = (s.atDepth? name depth).map (·.map f) := by
  unfold atDepth?
  rw [depth_map, frames_map]
  by_cases hdepth : 0 ≤ depth ∧ depth ≤ s.depth
  · rw [if_pos hdepth, if_pos hdepth, getElem?_map]
    cases s.frames[s.depth - depth.toNat]? with
    | none => rfl
    | some frame => exact get?_map f frame name
  · rw [if_neg hdepth, if_neg hdepth, Option.map_none]

theorem resolveAt?_map (s : Scopes α) (name : String) (depth : Int) :
    (s.map f).resolveAt? name depth = (s.resolveAt? name depth).map (·.map f) := by
  unfold resolveAt?
  rw [atDepth?_map, atDepth?_map]
  by_cases hdepth : 1 < depth
  · rw [if_pos hdepth, if_pos hdepth, Option.map_or]
  · rw [if_neg hdepth, if_neg hdepth, Option.or_none, Option.or_none]

end Scopes

end Map

end LocLang
