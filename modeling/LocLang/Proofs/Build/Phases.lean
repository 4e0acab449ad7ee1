import LocLang.Build
import Mathlib.Data.List.Induction
import Mathlib.Data.List.Nodup

namespace LocLang.Build

open List

variable {α β : Type} {i : Nat}

/-- Works on items in the given order, and keeps every outcome with the number of its item. A number that no item has is
    passed over. -/
def perform (work : FileTree → α → FileTree × β) (items : List α) : List Nat → FileTree → FileTree × List (Nat × β)
  | [], files => (files, [])
  | i :: order, files =>
    match items[i]? with
    | none => perform work items order files
    | some item =>
      let (files, outcome) := work files item
      let (files, outcomes) := perform work items order files
      (files, (i, outcome) :: outcomes)

/-- The files when it is an item's turn. -/
def turn (work : FileTree → α → FileTree × β) (order : List Nat) (files : FileTree) (items : List α) (i : Nat) :
    FileTree :=
  (perform work items (order.takeWhile (· ≠ i)) files).1

/-- A phase: the work on items in the given order, with the outcomes in the order of the items. -/
def phase (work : FileTree → α → FileTree × β) (order : List Nat) (files : FileTree) (items : List α) :
    FileTree × List β :=
  let (files, outcomes) := perform work items order files
  (files, (range items.length).filterMap fun i => lookup i outcomes)

/-- The orders of the phases. -/
structure Orders where
  parse : List Nat
  analyze : List Nat
  lower : List Nat
  write : List Nat

/-- Whether every phase comes to each of `n` sources once. -/
structure Orders.Cover (o : Orders) (n : Nat) : Prop where
  parse : o.parse.Perm (range n)
  analyze : o.analyze.Perm (range n)
  lower : o.lower.Perm (range n)
  write : o.write.Perm (range n)

/-- The step of the last phase: writes the code of a source. -/
def writeStep (w : Writer) (files : FileTree) (s : Staged IrModule) : FileTree × Staged (Except FileError Unit) :=
  let (files, outcome) := writeOne w files s
  (files, s.map fun _ => outcome)

/-- Builds the sources, with the phases in the given orders. -/
def runIn (w : Writer) (o : Orders) (files : FileTree) (profile : Profile) (sources : List SourceFile) :
    Report (Bool × FileTree) := do
  let (files, parsed) := phase (fun files s => (files, parse files s)) o.parse files sources
  reportEach reportParsed parsed
  if (← get).anyErrors then
    return (false, files)
  let (files, analyzed) := phase (fun files s => (files, s.map (·.analyze profile.strict))) o.analyze
    files (successes parsed)
  reportEach reportAnalyzed analyzed
  if (← get).anyErrors then
    return (false, files)
  let (files, lowered) := phase
    (fun files s => (files, s.map (·.lower (profile.target (Path.base s.source.path))))) o.lower files analyzed
  reportEach reportLowered lowered
  if (← get).anyErrors then
    return (false, files)
  let (files, written) := phase (writeStep w) o.write files (successes lowered)
  reportEach reportWritten written
  return (!(← get).anyErrors, files)

section Perform

variable {work : FileTree → α → FileTree × β} {items : List α} {order : List Nat} {f : FileTree → α → β} {item : α}

theorem perform_of_none (hitem : items[i]? = none) (order : List Nat) (files : FileTree) :
    perform work items (i :: order) files = perform work items order files := by
  rw [perform, hitem]

theorem perform_of_some (hitem : items[i]? = some item) (order : List Nat) (files : FileTree) :
    perform work items (i :: order) files =
      ((perform work items order (work files item).1).1,
        (i, (work files item).2) :: (perform work items order (work files item).1).2) := by
  rw [perform, hitem]

theorem turn_self (i : Nat) (order : List Nat) (files : FileTree) : turn work (i :: order) files items i = files := by
  rw [turn, takeWhile_cons_of_neg (by simp), perform]

theorem turn_of_none {j : Nat} (h : j ≠ i) (hitem : items[j]? = none) (order : List Nat) (files : FileTree) :
    turn work (j :: order) files items i = turn work order files items i := by
  rw [turn, takeWhile_cons_of_pos (by simpa using h), perform_of_none hitem, turn]

theorem turn_of_some {j : Nat} (h : j ≠ i) (hitem : items[j]? = some item) (order : List Nat) (files : FileTree) :
    turn work (j :: order) files items i = turn work order (work files item).1 items i := by
  rw [turn, takeWhile_cons_of_pos (by simpa using h), perform_of_some hitem, turn]

/-- The outcome for an item is that of the work at its turn. -/
theorem lookup_perform {files : FileTree} (hi : i ∈ order) (hitem : items[i]? = some item) :
    lookup i (perform work items order files).2 = some (work (turn work order files items i) item).2 := by
  induction order generalizing files with
  | nil => cases hi
  | cons j order ih =>
    by_cases hj : j = i
    · subst hj
      rw [perform_of_some hitem, lookup_cons_self, turn_self]
    · have hi : i ∈ order := (mem_cons.1 hi).resolve_left (Ne.symm hj)
      cases hother : items[j]? with
      | none =>
        rw [perform_of_none hother, turn_of_none hj hother]
        exact ih hi
      | some =>
        have hne : (i == j) = false := by simpa using Ne.symm hj
        rw [perform_of_some hother, turn_of_some hj hother, lookup_cons, hne]
        exact ih hi

theorem filterMap_range {g : Nat → Option β} {h : Nat → α → β} {items : List α}
    (hg : ∀ i item, items[i]? = some item → g i = some (h i item)) : (range items.length).filterMap g =
    items.mapIdx h := by
  induction items using reverseRecOn with
  | nil => rfl
  | append_singleton items last ih =>
    have hlast : g items.length = some (h items.length last) := hg _ _ (by simp)
    have hitems : ∀ i item, items[i]? = some item → g i = some (h i item) := by
      intro i item hitem
      refine hg i item ?_
      rw [List.getElem?_append_left (List.getElem?_eq_some_iff.1 hitem).1, hitem]
    rw [length_append, length_singleton, range_succ, filterMap_append, ih hitems, mapIdx_concat]
    simp [hlast]

/-- The outcomes of a phase that comes to all items. -/
theorem phase_eq (horder : ∀ i < items.length, i ∈ order)
      (files : FileTree) : phase work order files items = ((perform work items order files).1,
      items.mapIdx fun i item => (work (turn work order files items i) item).2) := by
  have hlookup := filterMap_range (g := fun i => lookup i (perform work items order files).2)
    (h := fun i item => (work (turn work order files items i) item).2) fun i item hitem =>
      lookup_perform (horder i (List.getElem?_eq_some_iff.1 hitem).1) hitem
  unfold phase
  simp only [hlookup]

theorem perform_pure (order : List Nat) (files : FileTree) :
    (perform (fun files item => (files, f files item)) items order files).1 = files := by
  induction order with
  | nil => rfl
  | cons i _ ih =>
    cases hitem : items[i]? with
    | none => rw [perform_of_none hitem, ih]
    | some => rw [perform_of_some hitem, ih]

/-- Work that leaves the files alone has the same outcomes in any order. -/
theorem phase_pure (horder : ∀ i < items.length, i ∈ order) (files : FileTree) :
    phase (fun files item => (files, f files item)) order files items = (files, items.map (f files)) := by
  have houtcomes : (items.mapIdx fun _ item => f files item) = items.map (f files) := ext_getElem (by simp) (by simp)
  simp only [phase_eq horder, turn, perform_pure, houtcomes]

end Perform


section Stages

variable (files : FileTree) (profile : Profile) (sources : List SourceFile)

/-- The sources with their programs. -/
def parsed : List (Staged (Except ParseFailure (Program Unit))) :=
  sources.map (parse files)

/-- The sources that have programs, with the analyses of these. -/
def analyzed : List (Staged Analysis) :=
  (successes (parsed files sources)).map (·.map (·.analyze profile.strict))

/-- The sources that have programs, with their code. -/
def lowered : List (Staged (Except LowerError IrModule)) :=
  (analyzed files profile sources).map fun s => s.map (·.lower (profile.target (Path.base s.source.path)))

/-- The files after code was written in an order, and what came of it for each source. -/
def written (w : Writer) (order : List Nat) : FileTree × List (Staged (Except FileError Unit)) :=
  phase (writeStep w) order files (successes (lowered files profile sources))

theorem length_successes_le {ε : Type} (staged : List (Staged (Except ε α))) :
    (successes staged).length ≤ staged.length :=
  length_filterMap_le _ _

theorem length_analyzed_le : (analyzed files profile sources).length ≤ sources.length := by
  simpa [analyzed, parsed] using length_successes_le (parsed files sources)

theorem length_lowered_le : (lowered files profile sources).length ≤ sources.length := by
  simpa [lowered] using length_analyzed_le files profile sources

/-- The order of work can be told only where files are written. -/
theorem runIn_eq (w : Writer) {o : Orders} (h : o.Cover sources.length) : runIn w o files profile sources = do
    reportEach reportParsed (parsed files sources)
    if (← get).anyErrors then
      return (false, files)
    reportEach reportAnalyzed (analyzed files profile sources)
    if (← get).anyErrors then
      return (false, files)
    reportEach reportLowered (lowered files profile sources)
    if (← get).anyErrors then
      return (false, files)
    reportEach reportWritten (written files profile sources w o.write).2
    return (!(← get).anyErrors, (written files profile sources w o.write).1) := by
  have hmem : ∀ {order : List Nat}, order.Perm (range sources.length) → ∀ {n : Nat}, n ≤ sources.length →
      ∀ i < n, i ∈ order :=
    fun horder n hn i hi => horder.mem_iff.2 (mem_range.2 (by omega))
  have hparsed : (successes (parsed files sources)).length ≤ sources.length := by
    simpa [analyzed] using length_analyzed_le files profile sources
  have hparse : phase (fun files s => (files, parse files s)) o.parse files sources = (files, parsed files sources) :=
    phase_pure (hmem h.parse (Nat.le_refl _)) files
  have hanalyze : phase (fun files s => (files, s.map (·.analyze profile.strict))) o.analyze files
      (successes (parsed files sources)) = (files, analyzed files profile sources) :=
    phase_pure (hmem h.analyze hparsed) files
  have hlower : phase (fun files s => (files, s.map (·.lower (profile.target (Path.base s.source.path))))) o.lower files
      (analyzed files profile sources) = (files, lowered files profile sources) :=
    phase_pure (hmem h.lower (length_analyzed_le files profile sources)) files
  unfold runIn written
  simp only [hparse, hanalyze, hlower]

end Stages


theorem lookup_zipIdx {l : List β} {k : Nat} : lookup (k + i) ((l.zipIdx k).map Prod.swap) = l[i]? := by
  induction l generalizing k i with
  | nil => rfl
  | cons _ _ ih =>
    rw [zipIdx_cons, map_cons, Prod.swap_prod_mk, lookup_cons]
    cases i with
    | zero => simp
    | succ i =>
      have hne : (k + (i + 1) == k) = false := by simp
      rw [hne, List.getElem?_cons_succ, ← ih (k := k + 1), Nat.add_right_comm, Nat.add_assoc]

variable (w : Writer)

theorem writeAll_cons (files : FileTree) (s : Staged IrModule) (rest : List (Staged IrModule)) :
    writeAll w files (s :: rest) = ((writeAll w (writeStep w files s).1 rest).1,
      (writeStep w files s).2 :: (writeAll w (writeStep w files s).1 rest).2) := by
  rw [writeAll, writeStep]

theorem length_writeAll (files : FileTree) (items : List (Staged IrModule)) :
    (writeAll w files items).2.length = items.length := by
  induction items generalizing files with
  | nil => rfl
  | cons _ _ ih => rw [writeAll_cons, length_cons, ih, length_cons]

theorem perform_range' {items : List (Staged IrModule)} (m k : Nat) (hlength : items.length ≤ k + m)
    (files : FileTree) :
    perform (writeStep w) items (range' k m) files =
      ((writeAll w files (items.drop k)).1, ((writeAll w files (items.drop k)).2.zipIdx k).map Prod.swap) := by
  induction m generalizing k files with
  | zero =>
    rw [drop_eq_nil_of_le (by omega)]
    rfl
  | succ m ih =>
    have hrest : items.length ≤ k + 1 + m := by omega
    rw [range'_succ]
    cases hitem : items[k]? with
    | none =>
      have hle : items.length ≤ k := List.getElem?_eq_none_iff.1 hitem
      have hnil := ih (k + 1) hrest files
      rw [drop_eq_nil_of_le (by omega)] at hnil
      rw [drop_eq_nil_of_le hle, perform_of_none hitem]
      exact hnil
    | some =>
      have hlt := List.getElem?_eq_some_iff.1 hitem
      rw [perform_of_some hitem, ih (k + 1) hrest, drop_eq_getElem_cons hlt.1, hlt.2, writeAll_cons, zipIdx_cons,
        map_cons, Prod.swap_prod_mk]

/-- In the order of the sources, code is written one after the other. -/
theorem phase_range {items : List (Staged IrModule)} {n : Nat} (hlength : items.length ≤ n) (files : FileTree) :
    phase (writeStep w) (range n) files items = writeAll w files items := by
  have hperform : perform (writeStep w) items (range n) files = _ :=
    range_eq_range' ▸ perform_range' w n 0 (by omega) files
  rw [drop_zero] at hperform
  have hwritten : (range (writeAll w files items).2.length).filterMap (fun i =>
      lookup i ((writeAll w files items).2.zipIdx.map Prod.swap)) = (writeAll w files items).2.mapIdx fun _ s => s := by
    apply filterMap_range
    intro i s hs
    rw [← hs, ← lookup_zipIdx (k := 0), Nat.zero_add]
  have hsame : ((writeAll w files items).2.mapIdx fun _ s => s) = (writeAll w files items).2 :=
    ext_getElem (by simp) (by simp)
  rw [length_writeAll, hsame] at hwritten
  unfold phase
  simp only [hperform, hwritten]

/-- The sources in their own order, in every phase. -/
def Orders.own (n : Nat) : Orders :=
  ⟨range n, range n, range n, range n⟩

theorem Orders.own_cover (n : Nat) : (own n).Cover n :=
  ⟨.refl _, .refl _, .refl _, .refl _⟩

/-- A build takes the sources in their own order. -/
theorem runIn_own (files : FileTree) (profile : Profile) (sources : List SourceFile) :
    runIn w (Orders.own sources.length) files profile sources = runWith w files profile sources := by
  have hlowered : (successes (lowered files profile sources)).length ≤ sources.length :=
    Nat.le_trans (length_successes_le _) (length_lowered_le files profile sources)
  rw [runIn_eq files profile sources w (Orders.own_cover _), runWith, analyze, bind_assoc]
  refine bind_congr fun _ => ?_
  rw [bind_assoc]
  refine bind_congr fun c => ?_
  by_cases hparse : c.anyErrors
  · simp only [if_pos hparse, pure_bind]
  · simp only [if_neg hparse, bind_assoc]
    refine bind_congr fun _ => bind_congr fun c => ?_
    by_cases hanalyze : c.anyErrors
    · simp only [if_pos hanalyze]
      rfl
    · simp only [if_neg hanalyze, Orders.own, written, phase_range w hlowered]
      rfl

end LocLang.Build
