import LocLang.Proofs.Build.Reported
import LocLang.Proofs.Build.Writing

namespace LocLang.Build

open List

variable {w : Writer} {o : Orders} {files : FileTree} {profile : Profile} {sources : List SourceFile}

/-- The files when it is the turn of a source to have its code written. -/
def filesAt (w : Writer) (o : Orders) (files : FileTree) (profile : Profile) (sources : List SourceFile) (i : Nat) :
    FileTree :=
  turn (writeStep w) o.write files (successes (lowered files profile sources)) i

/-- What a build without errors leaves behind, apart from the outputs of some sources that it failed to write. -/
structure Written (w : Writer) (o : Orders) (files : FileTree) (profile : Profile) (sources : List SourceFile)
    (after : FileTree) (failed : List SourceFile) : Prop where
  sublist : failed.Sublist sources
  /-- Every source has code, and all code is written that can be. -/
  code : ∀ s ∈ sources, ∃ m, code? files profile s = some m ∧ (s ∉ failed → after.read s.output = .ok (w.print m))
  /-- What cannot be written are the outputs that cannot be created when it is their turn, and those where something
      goes wrong once they are open. -/
  failed_iff : ∀ i s m, sources[i]? = some s → code? files profile s = some m →
    (s ∈ failed ↔ ¬(filesAt w o files profile sources i).CanCreate s.output ∨ w.fault? s.output (w.print m) ≠ none)
  /-- An output that was opened keeps what got into it. -/
  kept : ∀ i s m, sources[i]? = some s → code? files profile s = some m →
    (filesAt w o files profile sources i).CanCreate s.output → after.read s.output = .ok (w.kept s.output m)
  /-- No output keeps another one from being written, unless it is in its way. -/
  apart : files.WellFormed → (∀ s ∈ sources, ∀ s' ∈ sources, s ≠ s' →
    ¬files.place s.output <+: files.place (Path.directory s'.output)) → ∀ s ∈ sources, ∀ m,
    code? files profile s = some m → files.CanCreate s.output → w.fault? s.output (w.print m) = none → s ∉ failed
  /-- Nothing has changed but the outputs that were opened, and directories that were made. -/
  frame : ∀ q, after.lookup? q = files.lookup? q ∨ files.lookup? q = none ∧ after.lookup? q = some .directory ∨
    ∃ i s, sources[i]? = some s ∧ (filesAt w o files profile sources i).CanCreate s.output ∧ q = files.place s.output
  read : ∀ path bytes, files.read path = .ok bytes →
    (∀ i s, sources[i]? = some s → (filesAt w o files profile sources i).CanCreate s.output →
      files.place s.output ≠ files.place path) → after.read path = .ok bytes

def failures (written : List (Staged (Except FileError Unit))) : List SourceFile :=
  (written.filter (·.outcome.toOption.isNone)).map (·.source)

theorem length_failures (written : List (Staged (Except FileError Unit))) :
    (failures written).length = written.countP (·.outcome.toOption.isNone) := by
  rw [failures, length_map, countP_eq_length_filter]

theorem failures_sublist_map (written : List (Staged (Except FileError Unit))) :
    (failures written).Sublist (written.map (·.source)) :=
  filter_sublist.map _

section Written

variable (hprograms : ∀ s ∈ sources, program? files s ≠ none) (herrors : ∀ s ∈ sources, errorsIn files profile s = [])
  {source : SourceFile} {i : Nat}

include hprograms herrors

theorem exists_item (h : sources[i]? = some source) :
    ∃ s, (successes (lowered files profile sources))[i]? = some s ∧ s.source = source ∧
    code? files profile source = some s.outcome := by
  have hcode := (forall₂_code hprograms herrors).2
  obtain ⟨hi, rfl⟩ := List.getElem?_eq_some_iff.1 h
  have hi' := hcode.length_eq ▸ hi
  exact ⟨_, List.getElem?_eq_getElem hi', hcode.get hi hi'⟩

theorem source_of_item {s : Staged IrModule} (h : (successes (lowered files profile sources))[i]? = some s) :
    sources[i]? = some s.source ∧ code? files profile s.source = some s.outcome := by
  have hcode := (forall₂_code hprograms herrors).2
  obtain ⟨hi, rfl⟩ := List.getElem?_eq_some_iff.1 h
  have hi' := hcode.length_eq.symm ▸ hi
  obtain ⟨hsource, houtcome⟩ := hcode.get hi' hi
  rw [List.getElem?_eq_getElem hi']
  exact ⟨congrArg some hsource.symm, hsource.symm ▸ houtcome⟩

variable (horder : o.write.Perm (range sources.length))

include horder

theorem written_eq : written files profile sources w o.write =
    ((perform (writeStep w) (successes (lowered files profile sources)) o.write files).1,
      (successes (lowered files profile sources)).mapIdx fun i s =>
        (writeStep w (filesAt w o files profile sources i) s).2) := by
  refine phase_eq (fun i hi => horder.mem_iff.2 (mem_range.2 ?_)) files
  rwa [(forall₂_code hprograms herrors).2.length_eq]

theorem mem_failures : source ∈ failures (written files profile sources w o.write).2 ↔
    ∃ i m, sources[i]? = some source ∧ code? files profile source = some m ∧
      (¬(filesAt w o files profile sources i).CanCreate source.output ∨ w.fault? source.output (w.print m) ≠ none) := by
  rw [written_eq hprograms herrors horder, failures, mem_map]
  constructor
  · rintro ⟨_, hmem, rfl⟩
    rw [mem_filter, mem_mapIdx] at hmem
    obtain ⟨⟨i, hi, rfl⟩, hfailed⟩ := hmem
    rw [source_writeStep]
    obtain ⟨hsource, hcode⟩ := source_of_item hprograms herrors (List.getElem?_eq_getElem hi)
    exact ⟨i, _, hsource, hcode, writeStep_isNone_iff.1 hfailed⟩
  · rintro ⟨i, m, hi, hm, hnot⟩
    obtain ⟨s, hs, rfl, hcode⟩ := exists_item hprograms herrors hi
    obtain rfl := Option.some.inj (hcode.symm.trans hm)
    obtain ⟨hlt, rfl⟩ := List.getElem?_eq_some_iff.1 hs
    exact ⟨_, mem_filter.2 ⟨mem_mapIdx.2 ⟨i, hlt, rfl⟩, writeStep_isNone_iff.2 hnot⟩, source_writeStep _ _ _⟩

theorem map_source_written : (written files profile sources w o.write).2.map (·.source) = sources := by
  rw [written_eq hprograms herrors horder]
  refine ext_getElem? fun i => ?_
  rw [List.getElem?_map, List.getElem?_mapIdx, Option.map_map]
  cases hi : sources[i]? with
  | none =>
    cases hs : (successes (lowered files profile sources))[i]? with
    | none => rfl
    | some => cases hi.symm.trans (source_of_item hprograms herrors hs).1
  | some =>
    obtain ⟨s, hs, rfl, -⟩ := exists_item hprograms herrors hi
    rw [hs, Option.map_some]
    exact congrArg some (source_writeStep _ _ _)

variable (houtputs : (sources.map fun s => files.place s.output).Nodup)

omit hprograms herrors horder in
include houtputs in
theorem eq_of_place_eq {j : Nat} {s s' : SourceFile} (hi : sources[i]? = some s) (hj : sources[j]? = some s')
    (h : files.place s.output = files.place s'.output) : i = j := by
  have hlt : i < (sources.map fun s => files.place s.output).length := by
    rw [length_map]
    exact (List.getElem?_eq_some_iff.1 hi).1
  refine (List.getElem?_inj hlt houtputs).1 ?_
  rw [List.getElem?_map, List.getElem?_map, hi, hj, Option.map_some, Option.map_some, h]

include houtputs

theorem mem_failures_iff {m : IrModule} (hi : sources[i]? = some source) (hm : code? files profile source = some m) :
    source ∈ failures (written files profile sources w o.write).2 ↔
      ¬(filesAt w o files profile sources i).CanCreate source.output ∨ w.fault? source.output (w.print m) ≠ none := by
  rw [mem_failures hprograms herrors horder]
  constructor
  · rintro ⟨j, m', hj, hm', hnot⟩
    obtain rfl := eq_of_place_eq houtputs hi hj rfl
    obtain rfl := Option.some.inj (hm.symm.trans hm')
    exact hnot
  · exact fun hnot => ⟨i, m, hi, hm, hnot⟩

/-- An output that can be created at its turn keeps what gets into it. -/
theorem read_written {m : IrModule} (hi : sources[i]? = some source) (hm : code? files profile source = some m)
    (hcan : (filesAt w o files profile sources i).CanCreate source.output) :
    (written files profile sources w o.write).1.read source.output = .ok (w.kept source.output m) := by
  obtain ⟨s, hs, rfl, hcode⟩ := exists_item hprograms herrors hi
  obtain rfl := Option.some.inj (hcode.symm.trans hm)
  refine read_perform (horder.nodup_iff.2 nodup_range) (horder.mem_iff.2 (mem_range.2 ?_)) hs ?_ hcan
  · exact (List.getElem?_eq_some_iff.1 hi).1
  · intro j s' hs' hplace
    exact eq_of_place_eq houtputs (source_of_item hprograms herrors hs').1 hi hplace

theorem canCreate_filesAt (hfiles : files.WellFormed)
    (hapart : ∀ s ∈ sources, ∀ s' ∈ sources, s ≠ s' → ¬files.place s.output <+: files.place (Path.directory s'.output))
    {source : SourceFile} (hi : sources[i]? = some source) (hcan : files.CanCreate source.output) :
    (filesAt w o files profile sources i).CanCreate source.output := by
  obtain ⟨s, hs, rfl, -⟩ := exists_item hprograms herrors hi
  refine canCreate_turn hfiles.closed (fun j s' hs' hj => ?_) hcan (horder.nodup_iff.2 nodup_range)
  have hj' := (source_of_item hprograms herrors hs').1
  have hne : s'.source ≠ s.source := fun heq => hj (eq_of_place_eq houtputs hj' hi (by rw [heq]))
  have hmem := mem_of_getElem? hi
  have hmem' := mem_of_getElem? hj'
  exact ⟨hapart _ hmem' _ hmem hne, hapart _ hmem _ hmem' hne.symm⟩

theorem written_spec : Written w o files profile sources (written files profile sources w o.write).1
    (failures (written files profile sources w o.write).2) := by
  have hmem {i : Nat} {source : SourceFile} {m : IrModule} (hi : sources[i]? = some source)
      (hm : code? files profile source = some m) := mem_failures_iff (w := w) hprograms herrors horder houtputs hi hm
  have hfiles : (written files profile sources w o.write).1 =
      (perform (writeStep w) (successes (lowered files profile sources)) o.write files).1 :=
    congrArg Prod.fst (written_eq hprograms herrors horder)
  have hchanges := perform_changes w (successes (lowered files profile sources)) (horder.nodup_iff.2 nodup_range) files
  have hopened {q : Place} {bytes : List UInt8}
      (h : Writes w files (successes (lowered files profile sources)) o.write q bytes) : ∃ i s, sources[i]? = some s ∧
        (filesAt w o files profile sources i).CanCreate s.output ∧ q = files.place s.output := by
    obtain ⟨i, -, s, hs, hcan, rfl, -⟩ := h
    exact ⟨i, s.source, (source_of_item hprograms herrors hs).1, hcan, rfl⟩
  constructor
  case sublist =>
    have hsublist := failures_sublist_map (written files profile sources w o.write).2
    rwa [map_source_written hprograms herrors horder] at hsublist
  case code =>
    intro s hs
    obtain ⟨i, hi⟩ := mem_iff_getElem?.1 hs
    obtain ⟨item, -, rfl, hcode⟩ := exists_item hprograms herrors hi
    refine ⟨item.outcome, hcode, fun hok => ?_⟩
    rw [hmem hi hcode, not_or, not_not, not_not] at hok
    rw [read_written hprograms herrors horder houtputs hi hcode hok.1, Writer.kept_of_none hok.2]
  case failed_iff => exact fun i s m hi hm => hmem hi hm
  case kept => exact fun i s m hi hm => read_written hprograms herrors horder houtputs hi hm
  case apart =>
    intro hwell hapart s hs m hm hcan hfault
    obtain ⟨i, hi⟩ := mem_iff_getElem?.1 hs
    rw [hmem hi hm, not_or, not_not, not_not]
    exact ⟨canCreate_filesAt hprograms herrors horder houtputs hwell hapart hi hcan, hfault⟩
  case frame =>
    intro q
    rcases hchanges.lookup? q with hq | ⟨hnone, -, hq⟩ | ⟨-, bytes, hq, -⟩
    · exact .inl hq
    · exact .inr (.inl ⟨hnone, hq⟩)
    · exact .inr (.inr (hopened hq))
  case read =>
    intro path bytes hread hother
    refine hchanges.read_eq hread fun bytes' hwrites => ?_
    obtain ⟨i, s, hi, hcan, hplace⟩ := hopened hwrites
    exact hother i s hi hcan hplace.symm

end Written

/-- How many sources have no program. -/
def unparsed (files : FileTree) (sources : List SourceFile) : Nat :=
  sources.countP fun s => (program? files s).isNone

/-- How many errors there are in the programs of the sources. -/
def errorCount (files : FileTree) (profile : Profile) (sources : List SourceFile) : Nat :=
  (sources.flatMap (errorsIn files profile)).length

/-- A build with fresh counts comes to an end, whatever the order of work, however code is printed and whatever goes
    wrong with the files that it opens. If sources have no programs, or programs have errors, it fails with nothing
    written, and with these counted. Else it fails to write some outputs and succeeds if these are none. -/
theorem writes_all_or_nothing {c : Console} (horders : o.Cover sources.length)
    (houtputs : (sources.map fun s => files.place s.output).Nodup) (hfresh : c.errors = 0)
    (hshow : CanShow c.level files sources) :
    runIn w (Orders.own sources.length) files profile sources = runWith w files profile sources ∧
      ∃ ok after c', (runIn w o files profile sources).Gives c (ok, after) c' ∧
        (unparsed files sources ≠ 0 → ok = false ∧ after = files ∧ c'.errors = unparsed files sources) ∧
        (unparsed files sources = 0 → errorCount files profile sources ≠ 0 →
          ok = false ∧ after = files ∧ c'.errors = errorCount files profile sources) ∧
        (unparsed files sources = 0 → errorCount files profile sources = 0 →
          ∃ failed, Written w o files profile sources after failed ∧ (ok = true ↔ failed = []) ∧
            c'.errors = failed.length) := by
  refine ⟨runIn_own w files profile sources, ?_⟩
  rw [runIn_eq files profile sources w horders]
  obtain ⟨c1, hparsed, hcount, hlevel⟩ := counts_parsed hshow c rfl
  rw [hfresh, Nat.zero_add, ← unparsed] at hcount
  by_cases hunparsed : unparsed files sources = 0
  · obtain ⟨c2, hanalyzed, hcount2, hlevel2⟩ := counts_analyzed profile hshow c1 hlevel
    rw [hcount, hunparsed, Nat.zero_add, ← errorCount] at hcount2
    by_cases herrors : errorCount files profile sources = 0
    · have hprograms : ∀ s ∈ sources, program? files s ≠ none := by
        intro s hs hnone
        exact absurd hnone (by simpa using countP_eq_zero.1 hunparsed s hs)
      have hclean : ∀ s ∈ sources, errorsIn files profile s = [] :=
        flatMap_eq_nil_iff.1 (length_eq_zero_iff.1 herrors)
      obtain ⟨c3, hlowered, hcount3, hlevel3⟩ := counts_lowered (forall₂_code hprograms hclean).1 c2 hlevel2
      obtain ⟨c4, hwritten, hcount4, -⟩ := counts_written (written files profile sources w o.write).2 c3 hlevel3
      rw [hcount3, hcount2, herrors, ← length_failures] at hcount4
      refine ⟨!c4.anyErrors, _, c4, hparsed.proceed (hcount.trans hunparsed) (hanalyzed.proceed (hcount2.trans herrors)
        (hlowered.proceed (by omega) (hwritten.bind ((Report.gives_get c4).bind (Report.gives_pure _ c4))))),
        fun h => absurd hunparsed h, fun _ h => absurd herrors h, fun _ _ =>
          ⟨_, written_spec hprograms hclean horders.write houtputs, ?_, by omega⟩⟩
      rw [Bool.not_eq_true', Report.anyErrors_eq_false_iff, hcount4, ← length_eq_zero_iff]
      omega
    · exact ⟨false, files, c2, hparsed.proceed (hcount.trans hunparsed) (hanalyzed.stop (by omega) _), fun h =>
        absurd hunparsed h, fun _ _ => ⟨rfl, rfl, hcount2⟩, fun _ h => absurd h herrors⟩
  · exact ⟨false, files, c1, hparsed.stop (by omega) _, fun _ => ⟨rfl, rfl, hcount⟩, fun h => absurd h hunparsed,
      fun h => absurd h hunparsed⟩

/-- A directory with two sources, and with a directory at the place of the second output. -/
def bench : FileTree :=
  ⟨["w"], [(["w"], .directory), (["w", "a.loc"], .file (Text.Utf8.encode "fn f() {}")),
    (["w", "b.loc"], .file (Text.Utf8.encode "fn g() {}")), (["w", "b.ll"], .directory)]⟩

def benchSources : List SourceFile :=
  [⟨"/w/a.loc", "a.loc", "/w/a.ll"⟩, ⟨"/w/b.loc", "b.loc", "/w/b.ll"⟩]

/-- The code of the first source is written after that of the second could not be. -/
theorem writes_all_or_nothing_bench :
    ∃ after c', (runIn .sound ⟨[1, 0], [0, 1], [1, 0], [1, 0]⟩ bench {} benchSources).Gives
        { level := .error } (false, after) c' ∧ c'.errors = 1 ∧ ∃ m, code? bench {} ⟨"/w/a.loc", "a.loc", "/w/a.ll"⟩ = some m ∧
        after.read "/w/a.ll" = .ok (Text.Utf8.encode m.text) := by
  have horders : Orders.Cover ⟨[1, 0], [0, 1], [1, 0], [1, 0]⟩ benchSources.length :=
    ⟨by decide, by decide, by decide, by decide⟩
  have houtputs : (benchSources.map fun s => bench.place s.output).Nodup := by decide +kernel
  have hshow : CanShow .error bench benchSources := by
    have hlines : ∀ s ∈ benchSources, ∀ line ∈ ByteLine.split ((bench.read s.path).toOption.getD []),
        line.isTooLong = false := by
      decide +kernel
    intro _ s hs bytes hread
    have hline := hlines s hs
    rwa [hread] at hline
  obtain ⟨-, ok, after, c', hgives, -, -, hwritten⟩ :=
    @writes_all_or_nothing .sound _ bench {} benchSources { level := .error } horders houtputs rfl hshow
  obtain ⟨failed, hwritten, hok, hcount⟩ := hwritten (by decide +kernel) (by decide +kernel)
  obtain ⟨m, hm, hread⟩ := hwritten.code _ mem_cons_self
  have hfirst : ⟨"/w/a.loc", "a.loc", "/w/a.ll"⟩ ∉ failed :=
    hwritten.apart (by decide +kernel) (by decide +kernel) _ mem_cons_self m hm
      ⟨bench, ["w", "a.ll"], by decide +kernel, by decide +kernel, by decide +kernel⟩ rfl
  have hsecond : ⟨"/w/b.loc", "b.loc", "/w/b.ll"⟩ ∈ failed := by
    obtain ⟨m', hm', -⟩ := hwritten.code _ (mem_cons_of_mem _ mem_cons_self)
    rw [hwritten.failed_iff 1 _ m' rfl hm', filesAt, turn_self]
    refine .inl ?_
    rintro ⟨t, p, hmake, hlocate, hp⟩
    have hmade : bench.makeDirectories (Path.directory "/w/b.ll") = .ok bench := by decide +kernel
    have hlocated : bench.locate "/w/b.ll" = .ok ["w", "b.ll"] := by decide +kernel
    obtain rfl := Except.ok.inj (hmade.symm.trans hmake)
    obtain rfl := Except.ok.inj (hlocated.symm.trans hlocate)
    exact hp (by decide +kernel)
  obtain rfl : failed = [⟨"/w/b.loc", "b.loc", "/w/b.ll"⟩] := by
    rcases sublist_cons_iff.1 hwritten.sublist with hsublist | ⟨rest, rfl, -⟩
    · exact (sublist_singleton.1 hsublist).resolve_left (ne_nil_of_mem hsecond)
    · exact absurd mem_cons_self hfirst
  obtain rfl : ok = false := by simpa using hok
  exact ⟨after, c', hgives, hcount, m, hm, hread hfirst⟩

end LocLang.Build
