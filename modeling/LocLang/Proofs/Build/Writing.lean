import LocLang.Proofs.Build.Phases
import LocLang.Proofs.File.Directories

namespace LocLang

open FileTree

namespace FileTree

variable {made made' : Place → Prop} {written written' : Place → List UInt8 → Prop} {t t' t'' : FileTree}

/-- Whether all that has changed is this: directories were made where nothing was, and files were written where no
    directory was. -/
structure Changes (made : Place → Prop) (written : Place → List UInt8 → Prop) (t t' : FileTree) : Prop where
  current : t'.current = t.current
  lookup? : ∀ q, t'.lookup? q = t.lookup? q ∨ t.lookup? q = none ∧ made q ∧ t'.lookup? q = some .directory ∨
    t.lookup? q ≠ some .directory ∧ ∃ bytes, written q bytes ∧ t'.lookup? q = some (.file bytes)

namespace Changes

theorem refl (t : FileTree) : Changes made written t t :=
  ⟨rfl, fun _ => .inl rfl⟩

theorem mono (hmade : ∀ q, made q → made' q) (hwritten : ∀ q bytes, written q bytes → written' q bytes)
    (h : Changes made written t t') : Changes made' written' t t' := by
  refine ⟨h.current, fun q => (h.lookup? q).imp_right (Or.imp ?_ ?_)⟩
  · rintro ⟨hnone, hq, hq'⟩
    exact ⟨hnone, hmade q hq, hq'⟩
  · rintro ⟨hq, bytes, hbytes, hq'⟩
    exact ⟨hq, bytes, hwritten q bytes hbytes, hq'⟩

theorem trans (h : Changes made written t t') (h' : Changes made written t' t'') : Changes made written t t'' := by
  refine ⟨h'.current.trans h.current, fun q => ?_⟩
  rcases h.lookup? q with hq | ⟨hnone, hmade, hq⟩ | ⟨hne, bytes, hbytes, hq⟩
  · rw [← hq]
    exact h'.lookup? q
  · rcases h'.lookup? q with hq' | ⟨hnone', -⟩ | ⟨hne', -⟩
    · exact .inr (.inl ⟨hnone, hmade, hq'.trans hq⟩)
    · rw [hq] at hnone'
      cases hnone'
    · exact absurd hq hne'
  · rcases h'.lookup? q with hq' | ⟨hnone', -⟩ | ⟨-, hwritten'⟩
    · exact .inr (.inr ⟨hne, bytes, hbytes, hq'.trans hq⟩)
    · rw [hq] at hnone'
      cases hnone'
    · exact .inr (.inr ⟨hne, hwritten'⟩)

theorem keepsDirectories (h : Changes made written t t') : KeepsDirectories t t' := by
  refine ⟨h.current, fun q hq => ?_⟩
  rcases h.lookup? q with heq | ⟨hnone, -⟩ | ⟨hne, -⟩
  · rw [heq, hq]
  · rw [hq] at hnone
    cases hnone
  · exact absurd hq hne

/-- A file keeps its contents where nothing is written. -/
theorem read_eq (h : Changes made written t t') {path : String} {bytes : List UInt8} (hread : t.read path = .ok bytes)
    (hplace : ∀ bytes, ¬written (t.place path) bytes) : t'.read path = .ok bytes := by
  obtain ⟨p, hlocate, hentry⟩ := read_eq_ok_iff.1 hread
  obtain rfl := (locate_eq_ok_iff.1 hlocate).2.2
  refine read_eq_ok_iff.2 ⟨_, h.keepsDirectories.locate hlocate, ?_⟩
  rcases h.lookup? (t.place path) with heq | ⟨hnone, -⟩ | ⟨-, bytes, hbytes, -⟩
  · rw [heq, hentry]
  · rw [hentry] at hnone
    cases hnone
  · exact absurd hbytes (hplace bytes)

end Changes

theorem AddsDirectories.changes (h : AddsDirectories t t')
    (hmade : ∀ q, t.lookup? q = none → t'.lookup? q = some .directory → made q) : Changes made written t t' :=
  ⟨h.current, fun q => (h.lookup? q).imp_right fun ⟨hnone, hq⟩ => .inl ⟨hnone, hmade q hnone hq, hq⟩⟩

theorem changes_put {p : Place} {bytes : List UInt8} (hp : t.lookup? p ≠ some .directory) (hwritten : written p bytes) :
    Changes made written t (t.put p (.file bytes)) := by
  refine ⟨rfl, fun q => ?_⟩
  rw [lookup?_put (ne_nil_of_lookup? hp)]
  by_cases hq : q = p
  · rw [if_pos hq, hq]
    exact .inr (.inr ⟨hp, bytes, hwritten, rfl⟩)
  · rw [if_neg hq]
    exact .inl rfl

end FileTree

theorem Writer.kept_of_none {w : Writer} {path : String} {m : IrModule} (h : w.fault? path (w.print m) = none) :
    w.kept path m = w.print m := by
  rw [kept, h]

namespace Build

variable {w : Writer} {files : FileTree} {s : Staged IrModule}

/-- If the output of a source can be created, it keeps what the writer gets into it; else nothing more than directories
    can have been made. -/
theorem writeStep_cases (w : Writer) (files : FileTree) (s : Staged IrModule) :
    (files.CanCreate s.source.output ∧ ∃ t p, files.ensureDirectories (Path.directory s.source.output) = (t, .ok ()) ∧
        t.locate s.source.output = .ok p ∧ t.lookup? p ≠ some .directory ∧ writeStep w files s =
          (t.put p (.file (w.kept s.source.output s.outcome)), s.map fun _ => w.outcome s.source.output s.outcome)) ∨
      ¬files.CanCreate s.source.output ∧ ∃ e, writeStep w files s =
        ((files.ensureDirectories (Path.directory s.source.output)).1, s.map fun _ => .error e) := by
  unfold writeStep writeOne
  cases hensure : files.ensureDirectories (Path.directory s.source.output) with
  | mk t outcome =>
    cases outcome with
    | error e =>
      refine .inr ⟨?_, e, rfl⟩
      rintro ⟨t', p, hmake, -⟩
      rw [makeDirectories_eq_ok_iff, hensure] at hmake
      cases hmake
    | ok _ =>
      cases hwrite : t.write s.source.output (w.kept s.source.output s.outcome) with
      | ok =>
        obtain ⟨p, hlocate, hp, rfl⟩ := write_eq_ok_iff.1 hwrite
        exact .inl ⟨⟨t, p, makeDirectories_eq_ok_iff.2 hensure, hlocate, hp⟩, t, p, rfl, hlocate,
          hp, by simp only [hwrite]⟩
      | error e =>
        refine .inr ⟨?_, e, by simp only [hwrite]⟩
        rintro ⟨t', p, hmake, hlocate, hp⟩
        rw [makeDirectories_eq_ok_iff, hensure] at hmake
        obtain rfl : t = t' := congrArg Prod.fst hmake
        rw [write_eq_ok_iff.2 ⟨p, hlocate, hp, rfl⟩] at hwrite
        cases hwrite

theorem writeStep_changes (w : Writer) (files : FileTree) (s : Staged IrModule) :
    Changes (fun q => files.Closed → q <+: files.place (Path.directory s.source.output))
      (fun q bytes => files.CanCreate s.source.output ∧ q = files.place s.source.output ∧
        bytes = w.kept s.source.output s.outcome)
      files (writeStep w files s).1 := by
  have hadds := AddsDirectories.ensureDirectories files (Path.directory s.source.output)
  have hmade : ∀ q, files.lookup? q = none →
      (files.ensureDirectories (Path.directory s.source.output)).1.lookup? q = some .directory →
      files.Closed → q <+: files.place (Path.directory s.source.output) := by
    intro q hnone hq hclosed
    rcases hclosed.prefix_of_made (Path.isDirect_directory s.source.output) _ hnone with hnone' | hprefix
    · cases hnone'.symm.trans hq
    · exact hprefix
  obtain ⟨hcan, t, p, hensure, hlocate, hp, hstep⟩ | ⟨-, e, hstep⟩ := writeStep_cases w files s
  · rw [hensure] at hadds hmade
    have hplace : p = files.place s.source.output := by
      rw [(locate_eq_ok_iff.1 hlocate).2.2, hadds.keepsDirectories.place_eq]
    rw [hstep]
    exact (hadds.changes hmade).trans (changes_put hp ⟨hcan, hplace, rfl⟩)
  · simp only [hstep]
    exact hadds.changes hmade

theorem writeStep_closed (w : Writer) (h : files.Closed) (s : Staged IrModule) : (writeStep w files s).1.Closed := by
  have hclosed := h.ensureDirectories (Path.directory s.source.output)
  obtain ⟨-, t, p, hensure, hlocate, hp, hstep⟩ | ⟨-, e, hstep⟩ := writeStep_cases w files s
  · rw [hensure] at hclosed
    rw [hstep]
    exact hclosed.put hlocate hp _
  · simp only [hstep]
    exact hclosed

theorem source_writeStep (w : Writer) (files : FileTree) (s : Staged IrModule) :
    (writeStep w files s).2.source = s.source := by
  obtain ⟨-, t, p, -, -, -, hstep⟩ | ⟨-, e, hstep⟩ := writeStep_cases w files s <;> rw [hstep, Staged.map]

/-- A source fails if its output cannot be created, or if something goes wrong once it is open. -/
theorem writeStep_isNone_iff : (writeStep w files s).2.outcome.toOption.isNone = true ↔
    ¬files.CanCreate s.source.output ∨ w.fault? s.source.output (w.print s.outcome) ≠ none := by
  obtain ⟨hcan, t, p, -, -, -, hstep⟩ | ⟨hnot, e, hstep⟩ := writeStep_cases w files s
  · cases hfault : w.fault? s.source.output (w.print s.outcome) <;>
      simp [hstep, hcan, Staged.map, Except.toOption, Writer.outcome, hfault]
  · simp [hstep, hnot, Staged.map, Except.toOption]

theorem read_writeStep (h : files.CanCreate s.source.output) :
    (writeStep w files s).1.read s.source.output = .ok (w.kept s.source.output s.outcome) := by
  obtain ⟨-, t, p, -, hlocate, hp, hstep⟩ | ⟨hnot, -⟩ := writeStep_cases w files s
  · have hchanges : Changes (fun _ => False) (fun _ _ => True) t
        (t.put p (.file (w.kept s.source.output s.outcome))) := changes_put hp trivial
    rw [hstep]
    refine read_eq_ok_iff.2 ⟨p, hchanges.keepsDirectories.locate hlocate, ?_⟩
    rw [lookup?_put (ne_nil_of_lookup? hp), if_pos rfl]
  · exact absurd h hnot

section Order

variable {items : List (Staged IrModule)} {order : List Nat}

/-- Whether a place leads to an output in the order. -/
def Leads (files : FileTree) (items : List (Staged IrModule)) (order : List Nat) (q : Place) : Prop :=
  files.Closed → ∃ i ∈ order, ∃ s, items[i]? = some s ∧ q <+: files.place (Path.directory s.source.output)

/-- Whether bytes are what is kept of an output in the order that can be created at its turn. -/
def Writes (w : Writer) (files : FileTree) (items : List (Staged IrModule)) (order : List Nat) (q : Place)
    (bytes : List UInt8) : Prop :=
  ∃ i ∈ order, ∃ s, items[i]? = some s ∧ (turn (writeStep w) order files items i).CanCreate s.source.output ∧
    q = files.place s.source.output ∧ bytes = w.kept s.source.output s.outcome

theorem perform_closed (h : files.Closed) (order : List Nat) : (perform (writeStep w) items order files).1.Closed := by
  induction order generalizing files with
  | nil => exact h
  | cons i _ ih =>
    cases hs : items[i]? with
    | none =>
      rw [perform_of_none hs]
      exact ih h
    | some s =>
      rw [perform_of_some hs]
      exact ih (writeStep_closed w h s)

/-- What the last phase changes. -/
theorem perform_changes (w : Writer) (items : List (Staged IrModule)) (hnodup : order.Nodup) (files : FileTree) :
    Changes (Leads files items order) (Writes w files items order) files
      (perform (writeStep w) items order files).1 := by
  induction order generalizing files with
  | nil => exact .refl files
  | cons i order ih =>
    rw [List.nodup_cons] at hnodup
    have hne {j : Nat} (hj : j ∈ order) : i ≠ j := fun heq => hnodup.1 (heq ▸ hj)
    cases hs : items[i]? with
    | none =>
      rw [perform_of_none hs]
      refine (ih hnodup.2 files).mono (fun q hq hclosed => ?_) ?_
      · obtain ⟨j, hj, s, hs⟩ := hq hclosed
        exact ⟨j, List.mem_cons_of_mem _ hj, s, hs⟩
      · rintro q bytes ⟨j, hj, s, hs', hcan, hq⟩
        exact ⟨j, List.mem_cons_of_mem _ hj, s, hs', by rwa [turn_of_none (hne hj) hs], hq⟩
    | some s =>
      rw [perform_of_some hs]
      have hstep := writeStep_changes w files s
      have hplace (path : String) : (writeStep w files s).1.place path = files.place path :=
        hstep.keepsDirectories.place_eq
      refine .trans (hstep.mono (fun q hq hclosed => ?_) ?_)
        ((ih hnodup.2 (writeStep w files s).1).mono (fun q hq hclosed => ?_) ?_)
      · exact ⟨i, List.mem_cons_self, s, hs, hq hclosed⟩
      · rintro q bytes ⟨hcan, hq⟩
        exact ⟨i, List.mem_cons_self, s, hs, by rwa [turn_self], hq⟩
      · obtain ⟨j, hj, s', hs', hprefix⟩ := hq (writeStep_closed w hclosed s)
        exact ⟨j, List.mem_cons_of_mem _ hj, s', hs', hplace _ ▸ hprefix⟩
      · rintro q bytes ⟨j, hj, s', hs', hcan, hq, hbytes⟩
        exact ⟨j, List.mem_cons_of_mem _ hj, s', hs', by rwa [turn_of_some (hne hj) hs], hplace _ ▸ hq, hbytes⟩

/-- An output that can be created at its turn keeps what was written to it, if no other output is at its place. -/
theorem read_perform (hnodup : order.Nodup) {i : Nat} (hi : i ∈ order) (hs : items[i]? = some s)
    (hplaces : ∀ j s', items[j]? = some s' → files.place s'.source.output = files.place s.source.output → j = i)
    (hcan : (turn (writeStep w) order files items i).CanCreate s.source.output) :
    (perform (writeStep w) items order files).1.read s.source.output = .ok (w.kept s.source.output s.outcome) := by
  induction order generalizing files with
  | nil => cases hi
  | cons j order ih =>
    rw [List.nodup_cons] at hnodup
    by_cases hj : j = i
    · subst hj
      rw [turn_self] at hcan
      have hkeeps := (writeStep_changes w files s).keepsDirectories
      rw [perform_of_some hs]
      -- Nothing that comes later writes to the place.
      refine (perform_changes w items hnodup.2 _).read_eq (read_writeStep hcan) ?_
      rintro bytes ⟨k, hk, s', hs', -, hplace, -⟩
      rw [hkeeps.place_eq, hkeeps.place_eq] at hplace
      obtain rfl := hplaces k s' hs' hplace.symm
      exact hnodup.1 hk
    · have hi : i ∈ order := (List.mem_cons.1 hi).resolve_left (Ne.symm hj)
      cases hother : items[j]? with
      | none =>
        rw [turn_of_none hj hother] at hcan
        rw [perform_of_none hother]
        exact ih hnodup.2 hi hplaces hcan
      | some other =>
        have hkeeps := (writeStep_changes w files other).keepsDirectories
        rw [turn_of_some hj hother] at hcan
        rw [perform_of_some hother]
        refine ih hnodup.2 hi (fun k s' hs' hplace => hplaces k s' hs' ?_) hcan
        rwa [hkeeps.place_eq, hkeeps.place_eq] at hplace

/-- The files at a turn have changed by what came before. -/
theorem turn_changes (w : Writer) (items : List (Staged IrModule)) (hnodup : order.Nodup) (files : FileTree) (i : Nat) :
    Changes (Leads files items (order.takeWhile (· ≠ i))) (Writes w files items (order.takeWhile (· ≠ i))) files
      (turn (writeStep w) order files items i) :=
  perform_changes w items (hnodup.sublist (List.takeWhile_sublist _)) files

/-- An output that can be created from the start can be created at its turn, if no other one is in its way. -/
theorem canCreate_turn (h : files.Closed) {i : Nat} (hapart : ∀ j s', items[j]? = some s' → j ≠ i →
      ¬files.place s'.source.output <+: files.place (Path.directory s.source.output) ∧
      ¬files.place s.source.output <+: files.place (Path.directory s'.source.output))
    (hcan : files.CanCreate s.source.output) (hnodup : order.Nodup) :
    (turn (writeStep w) order files items i).CanCreate s.source.output := by
  have hchanges := turn_changes w items hnodup files i
  have hne : ∀ {j}, j ∈ order.takeWhile (· ≠ i) → j ≠ i := fun hj => by simpa using List.mem_takeWhile_imp hj
  refine hcan.mono h (perform_closed h _) hchanges.keepsDirectories (fun q hq bytes hfile hnone => ?_)
    fun hdirectory => ?_
  · -- A file on the way would be another output.
    rcases hchanges.lookup? q with heq | ⟨-, -, hdirectory⟩ | ⟨-, bytes', ⟨j, hj, s', hs', -, rfl, -⟩, -⟩
    · rw [heq, hnone] at hfile
      cases hfile
    · rw [hdirectory] at hfile
      cases hfile
    · exact (hapart j s' hs' (hne hj)).1 hq
  · -- A directory at the place would lead to another output.
    rcases hchanges.lookup? (files.place s.source.output) with heq | ⟨-, hleads, -⟩ | ⟨-, bytes, -, hfile⟩
    · rwa [heq] at hdirectory
    · obtain ⟨j, hj, s', hs', hprefix⟩ := hleads h
      exact absurd hprefix (hapart j s' hs' (hne hj)).2
    · rw [hfile] at hdirectory
      cases hdirectory

end Order

end Build

end LocLang
