import LocLang.File.Tree
import LocLang.Proofs.File.Path

namespace LocLang.FileTree

variable {t : FileTree}

/-- Whether a file tree is one: a place has one entry, which has a name and is in a directory, and paths start from a
    directory. -/
structure WellFormed (t : FileTree) : Prop where
  distinct : (t.entries.map (·.1)).Nodup
  names : ∀ e ∈ t.entries, ∀ name ∈ e.1, Path.IsName name
  parents : ∀ e ∈ t.entries, e.1 ≠ [] ∧ t.lookup? e.1.dropLast = some .directory
  current : t.lookup? t.current = some .directory

instance (t : FileTree) : Decidable t.WellFormed :=
  decidable_of_iff ((t.entries.map (·.1)).Nodup ∧ (∀ e ∈ t.entries, ∀ name ∈ e.1, Path.IsName name) ∧
      (∀ e ∈ t.entries, e.1 ≠ [] ∧ t.lookup? e.1.dropLast = some .directory) ∧ t.lookup? t.current = some .directory)
    ⟨fun ⟨h, h', h'', h'''⟩ => ⟨h, h', h'', h'''⟩, fun ⟨h, h', h'', h'''⟩ => ⟨h, h', h'', h'''⟩⟩

theorem mem_filesIn {place : Place} {name : String} :
    name ∈ t.filesIn place ↔ ∃ bytes, (place ++ [name], .file bytes) ∈ t.entries := by
  rw [filesIn, List.mem_filterMap]
  constructor
  · rintro ⟨⟨p, entry⟩, hmem, hname⟩
    cases entry with
    | directory => cases hname
    | file bytes =>
      simp only [Option.ite_none_right_eq_some] at hname
      obtain ⟨rfl, hlast⟩ := hname
      rw [List.dropLast_append_getLast? name hlast]
      exact ⟨bytes, hmem⟩
  · rintro ⟨bytes, hmem⟩
    exact ⟨_, hmem, by simp⟩

theorem WellFormed.nodup_filesIn (h : t.WellFormed) (place : Place) : (t.filesIn place).Nodup := by
  have hdistinct := h.distinct
  rw [List.Nodup, List.pairwise_map] at hdistinct
  rw [filesIn, List.Nodup, List.pairwise_filterMap]
  refine hdistinct.imp ?_
  rintro ⟨p, entry⟩ ⟨p', entry'⟩ hne name hname name' hname' rfl
  cases entry with
  | directory => cases hname
  | file =>
    cases entry' with
    | directory => cases hname'
    | file =>
      simp only [Option.ite_none_right_eq_some] at hname hname'
      apply hne
      rw [← List.dropLast_append_getLast? name hname.2, ← List.dropLast_append_getLast? name hname'.2, hname.1,
        hname'.1]

theorem WellFormed.isName_of_mem_filesIn (h : t.WellFormed) {place : Place} {name : String}
    (hname : name ∈ t.filesIn place) : Path.IsName name := by
  obtain ⟨bytes, hmem⟩ := mem_filesIn.1 hname
  exact h.names _ hmem name (by simp)

end LocLang.FileTree
