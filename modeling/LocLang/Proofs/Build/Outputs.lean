import LocLang.Build
import LocLang.Proofs.File.Tree
import Mathlib.Data.List.Nodup

namespace LocLang

open List

theorem Profile.head?_of_checkExtension {ext checked : String} (h : checkExtension ext = .ok checked) :
    checked.toList.head? = some '.' := by
  unfold checkExtension at h
  split at h
  · cases h
    rfl
  · split at h
    · cases h
      assumption
    · cases h

/-- A profile that is read has an extension with a dot. -/
theorem Profile.head?_outputExt {text : String} {profile : Profile} (h : ofText text = .ok profile) :
    profile.outputExt.toList.head? = some '.' := by
  unfold ofText at h
  split at h
  · cases h
  · split at h
    · cases h
      rfl
    · rename_i table _
      simp only [ofTable, bind, Except.bind] at h
      repeat (split at h; · cases h)
      cases h
      apply head?_of_checkExtension
      assumption
    · cases h

namespace SourceFile

variable {n m : String} {sources : List SourceFile}

open LocLang.Path

theorem clean_eq_ofNames {path : String} (h : isAbsolute path = true) :
    ∃ ns, (∀ n ∈ ns, IsName n) ∧ clean path = ofNames true ns :=
  ⟨plainNames path, isName_of_mem_plainNames h, by rw [clean, h]⟩

/-- The absolute path of anything is a path of names from the root. -/
theorem absolute_eq_ofNames (files : FileTree) (path : String) :
    ∃ ns, (∀ n ∈ ns, IsName n) ∧ absolute files.currentPath path = ofNames true ns := by
  have hcurrent : isAbsolute files.currentPath = true := isAbsolute_ofNames _
  have hne : files.currentPath ≠ "" := by
    intro hempty
    rw [hempty] at hcurrent
    exact absurd hcurrent (by decide)
  rw [absolute]
  split
  · exact clean_eq_ofNames ‹_›
  · rw [join, if_neg hne]
    split
    · exact clean_eq_ofNames hcurrent
    · exact clean_eq_ofNames ((isAbsolute_append hne path).trans hcurrent)

theorem mem_namesIn {files : FileTree} {directory name : String} :
    name ∈ namesIn files directory ↔ name ∈ files.filesIn (plainNames directory) ∧ extension name = ext := by
  rw [namesIn, Text.naturalSort, (mergeSort_perm _ _).mem_iff, mem_filter, decide_eq_true_iff]

theorem nodup_namesIn {files : FileTree} (hfiles : files.WellFormed) (directory : String) :
    (namesIn files directory).Nodup := by
  rw [namesIn, Text.naturalSort, (mergeSort_perm _ _).nodup_iff]
  exact (hfiles.nodup_filesIn _).filter _

/-- The sources that a path stands for: files of different names in a directory, and if there are several, sources by
    their extension. -/
theorem exists_of_collect {files : FileTree} (hfiles : files.WellFormed) {profile : Profile} {path : String}
    (h : collect files profile path = .ok sources) :
    ∃ ns members : List String, (∀ n ∈ ns, IsName n) ∧ (∀ n ∈ members, IsName n) ∧ members.Nodup ∧
      (members.length = 1 ∨ ∀ n ∈ members, extension n = ext) ∧
      sources = members.map fun n => ofPath files profile (inside ns ++ n) := by
  obtain ⟨ns, hns, hfull⟩ := absolute_eq_ofNames files path
  unfold collect at h
  dsimp only at h
  rw [hfull] at h
  split at h
  · cases h
  · rename_i bytes hstat
    cases h
    rcases eq_nil_or_concat ns with rfl | ⟨front, last, rfl⟩
    · have hroot : files.stat (ofNames true []) = .ok .directory := rfl
      cases hstat
    · rw [concat_eq_append, forall_mem_append] at hns
      refine ⟨front, [last], hns.1, hns.2, nodup_singleton _, .inl rfl, ?_⟩
      rw [map_singleton, concat_eq_append, ofNames_append]
  · split at h
    · cases h
    · cases h
      have hmem : ∀ n ∈ namesIn files (ofNames true ns), IsName n :=
        fun n hn => hfiles.isName_of_mem_filesIn (mem_namesIn.1 hn).1
      refine ⟨ns, _, hns, hmem, nodup_namesIn hfiles _, .inr fun n hn => (mem_namesIn.1 hn).2, ?_⟩
      apply map_congr_left
      intro n hn
      rw [join_ofNames hns (hmem n hn), ofNames_append]

section Collected

variable {files : FileTree} {profile : Profile} {ns members : List String}

theorem output_ofPath (hn : IsName n) :
    (ofPath files profile (inside ns ++ n)).output = inside ns ++ (stem n ++ profile.outputExt) := by
  rw [ofPath, withExtension_eq, stem_inside ns hn.no_slash, String.append_assoc]

theorem base_ofPath (hn : IsName n) : base (ofPath files profile (inside ns ++ n)).path = n := by
  have htrim : trimSlashes n.toList = n.toList := trimSlashes_of_not_mem hn.no_slash
  have hne : n.toList ≠ [] := by simpa using hn.ne_empty
  rw [ofPath, base_inside ns (by rw [htrim]; exact hn.no_slash) (by rwa [htrim]), htrim, String.ofList_toList]

/-- Names with the same extension are told apart by what stands before it. -/
theorem stem_injective (hext : extension n = extension m) (h : stem n = stem m) : n = m := by
  rw [← stem_append_extension n, ← stem_append_extension m, hext, h]

theorem nodup_outputs (hmembers : ∀ n ∈ members, IsName n) (hnodup : members.Nodup)
    (hext : ∀ n ∈ members, ∀ m ∈ members, extension n = extension m) :
    ((members.map fun n => ofPath files profile (inside ns ++ n)).map (·.output)).Nodup := by
  rw [map_map]
  refine Nodup.map_on (fun n hn m hm h => ?_) hnodup
  rw [Function.comp_apply, Function.comp_apply, output_ofPath (hmembers n hn), output_ofPath (hmembers m hm),
    String.append_right_inj, String.append_left_inj] at h
  exact stem_injective (hext n hn m hm) h

theorem output_eq_path_iff (hn : IsName n) (hm : IsName m) :
    (ofPath files profile (inside ns ++ n)).output = (ofPath files profile (inside ns ++ m)).path ↔
      ∃ first, base (ofPath files profile (inside ns ++ n)).path = first ++ extension
        (ofPath files profile (inside ns ++ n)).path ∧
        base (ofPath files profile (inside ns ++ m)).path = first ++ profile.outputExt := by
  have hpath (n : String) : (ofPath files profile (inside ns ++ n)).path = inside ns ++ n := rfl
  rw [output_ofPath hn, base_ofPath hn, base_ofPath hm, hpath, hpath, extension_inside ns hn.no_slash,
    String.append_right_inj]
  constructor
  · intro h
    exact ⟨stem n, (stem_append_extension n).symm, h.symm⟩
  · rintro ⟨first, hfirst, rfl⟩
    nth_rewrite 1 [← stem_append_extension n] at hfirst
    rw [(String.append_left_inj _).1 hfirst]

/-- The extension of outputs without slashes at its end. -/
def trimmedExt (profile : Profile) : String :=
  String.ofList (trimSlashes profile.outputExt.toList)

section Redirected

variable (hdot : profile.outputExt.toList.head? = some '.')

include hdot

theorem exists_trimmedExt : ∃ rest, (trimmedExt profile).toList = '.' :: rest := by
  have hne := trimSlashes_ne_nil (mem_of_mem_head? hdot) (by decide)
  obtain ⟨slashes, hslashes⟩ := trimSlashes_prefix profile.outputExt.toList
  rw [trimmedExt, String.toList_ofList]
  cases htrim : trimSlashes profile.outputExt.toList with
  | nil => exact absurd htrim hne
  | cons c rest =>
    rw [htrim] at hslashes
    rw [← hslashes] at hdot
    obtain rfl : c = '.' := by simpa using hdot
    exact ⟨rest, rfl⟩

/-- The name that code has in another directory. -/
theorem base_output (hn : IsName n) (hslash : '/' ∉ (trimmedExt profile).toList) :
    base (withExtension (ofPath files profile (inside ns ++ n)).path profile.outputExt) = stem n ++
    trimmedExt profile := by
  have hne := trimSlashes_ne_nil (mem_of_mem_head? hdot) (by decide)
  have htrim : trimSlashes (stem n ++ profile.outputExt).toList = (stem n ++ trimmedExt profile).toList := by
    rw [String.toList_append, trimSlashes_append _ hne, String.toList_append, trimmedExt, String.toList_ofList]
  have hname : '/' ∉ (stem n ++ trimmedExt profile).toList := by
    rw [String.toList_append, mem_append, not_or]
    exact ⟨stem_no_slash hn.no_slash, hslash⟩
  have hempty : (stem n ++ trimmedExt profile).toList ≠ [] := by
    obtain ⟨rest, hrest⟩ := exists_trimmedExt hdot
    simp [hrest]
  rw [withExtension_eq, ofPath, stem_inside ns hn.no_slash, String.append_assoc,
    base_inside ns (by rwa [htrim]) (by rwa [htrim]), htrim, String.ofList_toList]

theorem append_trimmedExt_eq_dot {first : String} (h : first ++ trimmedExt profile = ".") :
    first = "" ∧ trimmedExt profile = "." := by
  obtain ⟨rest, hrest⟩ := exists_trimmedExt hdot
  have hlist := congrArg String.toList h
  rw [String.toList_append, hrest] at hlist
  have hfirst : first.toList = [] := by
    cases hchars : first.toList with
    | nil => rfl
    | cons => simp [hchars] at hlist
  obtain rfl : first = "" := by simpa using hfirst
  exact ⟨rfl, h⟩

/-- The names that lead back to the root from there are those of `.loc` and `..loc`. -/
theorem dots_of_root (hn : extension n = ext) (hm : extension m = ext) (hdotName : stem n ++ trimmedExt profile = ".")
    (hdotsName : stem m ++ trimmedExt profile = "..") : trimmedExt profile = "." ∧ n = ".loc" ∧ m = "..loc" := by
  obtain ⟨hstem, htrimmed⟩ := append_trimmedExt_eq_dot hdot hdotName
  have hstem' : stem m = "." := by
    rw [htrimmed] at hdotsName
    exact (String.append_left_inj ".").1 hdotsName
  refine ⟨htrimmed, ?_, ?_⟩
  · rw [← stem_append_extension n, hn, hstem]
    rfl
  · rw [← stem_append_extension m, hm, hstem']
    rfl

theorem nodup_redirected (hmembers : ∀ n ∈ members, IsName n) (hnodup : members.Nodup)
    (hext : ∀ n ∈ members, extension n = ext) (output : String) (hslash : '/' ∉ (trimmedExt profile).toList)
    (hroot : trimmedExt profile = "." → clean output = "/" → ".loc" ∈ members →
    "..loc" ∉ members) : (members.map fun n =>
      join output (base (withExtension (ofPath files profile (inside ns ++ n)).path profile.outputExt))).Nodup := by
  have hname (n : String) (hn : n ∈ members) : '/' ∉ (stem n ++ trimmedExt profile).toList := by
    rw [String.toList_append, mem_append, not_or]
    exact ⟨stem_no_slash (hmembers n hn).no_slash, hslash⟩
  have hne (n : String) : stem n ++ trimmedExt profile ≠ "" := by
    obtain ⟨rest, hrest⟩ := exists_trimmedExt hdot
    intro hempty
    have hlist := congrArg String.toList hempty
    simp [hrest] at hlist
  -- From the root, a dot and two dots are both the root; then there are sources `.loc` and `..loc`.
  have hdots (n m : String) (hn : n ∈ members) (hm : m ∈ members) (habsolute : isAbsolute output = true)
      (hplace : (plainNames output).reverse = []) (hdotName : stem n ++ trimmedExt profile = ".") :
      stem m ++ trimmedExt profile ≠ ".." := by
    intro hdotsName
    obtain ⟨htrimmed, rfl, rfl⟩ := dots_of_root hdot (hext n hn) (hext m hm) hdotName hdotsName
    have hclean : clean output = "/" := by
      rw [clean, habsolute, reverse_eq_nil_iff.1 hplace]
      rfl
    exact hroot htrimmed hclean hn hm
  refine Nodup.map_on (fun n hn m hm h => ?_) hnodup
  rw [base_output hdot (hmembers n hn) hslash, base_output hdot (hmembers m hm) hslash, join_name (hne n) (hname n hn),
    join_name (hne m) (hname m hm)] at h
  have hplain (n : String) (hn : n ∈ members) :
      ∀ name ∈ (step (isAbsolute output) (plainNames output).reverse (stem n ++ trimmedExt profile)).reverse,
      IsPlain name := by
    intro name hmem
    refine isPlain_of_mem_step (hname n hn) (fun name hmem => ?_) name (mem_reverse.1 hmem)
    exact isPlain_of_mem_plainNames name (mem_reverse.1 hmem)
  have hstep := reverse_injective (ofNames_injective (hplain n hn) (hplain m hm) h)
  have hnames := step_injective (hne n) (hne m) (hname n hn) (hname m hm) (hdots n m hn hm) (hdots m n hm hn) hstep
  exact stem_injective ((hext n hn).trans (hext m hm).symm) ((String.append_left_inj _).1 hnames)

end Redirected

end Collected

/-- Whether several sources have names of their own in a directory: the extension of outputs has no slash, except at its
    end, and no two of the names are dots that lead to the root. -/
def KeepNames (profile : Profile) (output : String) (sources : List SourceFile) : Prop :=
  '/' ∉ (trimmedExt profile).toList ∧ ¬(trimmedExt profile = "." ∧ clean output = "/" ∧
    (∃ a ∈ sources, base a.path = ".loc") ∧ ∃ b ∈ sources, base b.path = "..loc")

theorem redirect_of_length_ne_one {profile : Profile} {output : String} (h : sources.length ≠ 1) :
    redirect profile output sources =
      sources.map fun s => { s with output := join output (base (withExtension s.path profile.outputExt)) } := by
  cases sources with
  | nil => rfl
  | cons _ rest =>
    cases rest with
    | nil => exact absurd rfl h
    | cons => rfl

/-- The sources of a compilation have different outputs, also in another directory if they keep their names there. An
    output is a source if that has the name of one with the extension of outputs, and only then. -/
theorem outputs_apart {text path : String} {profile : Profile} {files : FileTree} {sources : List SourceFile}
    (hfiles : files.WellFormed) (hprofile : Profile.ofText text = .ok profile)
      (hsources : collect files profile path = .ok sources) :
    (sources.map (·.output)).Nodup ∧
    (∀ output, sources.length = 1 ∨ KeepNames profile output sources →
      ((redirect profile output sources).map (·.output)).Nodup) ∧
    ∀ a ∈ sources, ∀ b ∈ sources,
      (a.output = b.path ↔ ∃ first, base a.path = first ++ extension a.path ∧
        base b.path = first ++ profile.outputExt) := by
  have hdot := Profile.head?_outputExt hprofile
  obtain ⟨ns, members, hns, hmembers, hnodup, hext, rfl⟩ := exists_of_collect hfiles hsources
  refine ⟨nodup_outputs hmembers hnodup fun n hn m hm => ?_, fun output hkeep => ?_, fun a ha b hb => ?_⟩
  · rcases hext with hone | hext
    · obtain ⟨only, rfl⟩ := length_eq_one_iff.1 hone
      rw [mem_singleton.1 hn, mem_singleton.1 hm]
    · rw [hext n hn, hext m hm]
  · by_cases hone : members.length = 1
    · obtain ⟨only, rfl⟩ := length_eq_one_iff.1 hone
      exact nodup_singleton _
    · have hext := hext.resolve_left hone
      obtain ⟨hslash, hroot⟩ := hkeep.resolve_left (by simpa using hone)
      have hmem (n : String) (hn : n ∈ members) :
          ∃ a ∈ members.map fun n => ofPath files profile (inside ns ++ n), base a.path = n :=
        ⟨_, mem_map_of_mem hn, base_ofPath (hmembers n hn)⟩
      rw [redirect_of_length_ne_one (by simpa using hone), map_map, map_map]
      refine nodup_redirected hdot hmembers hnodup hext output hslash fun htrimmed hclean hn hm => ?_
      exact hroot ⟨htrimmed, hclean, hmem _ hn, hmem _ hm⟩
  · obtain ⟨n, hn, rfl⟩ := mem_map.1 ha
    obtain ⟨m, hm, rfl⟩ := mem_map.1 hb
    exact output_eq_path_iff (hmembers n hn) (hmembers m hm)

/-- A directory with empty files of the given names, where paths start. -/
def deskOf (members : List String) : FileTree :=
  ⟨["w"], (["w"], .directory) :: members.map fun n => (["w", n], .file [])⟩

/-- Two sources of a directory, the second of which comes first in natural order. -/
theorem collect_deskOf (profile : Profile) (hless : Text.naturalLess m n = true)
    (hnames : ((deskOf [n, m]).filesIn ["w"]).filter (extension · = ext) = [n, m]) :
      collect (deskOf [n, m]) profile "." =
      .ok [ofPath (deskOf [n, m]) profile (join "/w" m), ofPath (deskOf [n, m]) profile (join "/w" n)] := by
  have habsolute : absolute (deskOf [n, m]).currentPath "." = "/w" := by
    show absolute "/w" "." = "/w"
    decide
  have hstat : (deskOf [n, m]).stat "/w" = .ok .directory := rfl
  have hplain : plainNames "/w" = ["w"] := by decide
  have hsort : namesIn (deskOf [n, m]) "/w" = [m, n] := by
    rw [namesIn, hplain, hnames, Text.naturalSort]
    simp [mergeSort, MergeSort.Internal.splitInTwo, hless]
  unfold collect
  dsimp only
  rw [habsolute, hstat, hsort]
  rfl

/-- Here the code of `a.loc` would replace the source `a.b.loc`, but in the directory `out` both outputs have names of
    their own. -/
theorem outputs_apart_doubled : (deskOf ["a.loc", "a.b.loc"]).WellFormed ∧
    Profile.ofText "[build]\noutput-ext = \".b.loc\"\n" = .ok { outputExt := ".b.loc" } ∧
    collect (deskOf ["a.loc", "a.b.loc"]) { outputExt := ".b.loc" } "." =
      .ok [⟨"/w/a.b.loc", "a.b.loc", "/w/a.b.b.loc"⟩, ⟨"/w/a.loc", "a.loc", "/w/a.b.loc"⟩] ∧
    ["/w/a.b.b.loc", "/w/a.b.loc"].Nodup ∧ ["out/a.b.b.loc", "out/a.b.loc"].Nodup ∧
    ∃ first, base "/w/a.loc" = first ++ extension "/w/a.loc" ∧ base "/w/a.b.loc" = first ++ ".b.loc" := by
  have hfiles : (deskOf ["a.loc", "a.b.loc"]).WellFormed := by decide +kernel
  have hprofile : Profile.ofText "[build]\noutput-ext = \".b.loc\"\n" = .ok { outputExt :=
      ".b.loc" } := by decide +kernel
  have hsources : collect (deskOf ["a.loc", "a.b.loc"]) { outputExt := ".b.loc" } "." =
      .ok [⟨"/w/a.b.loc", "a.b.loc", "/w/a.b.b.loc"⟩, ⟨"/w/a.loc", "a.loc", "/w/a.b.loc"⟩] := by
    rw [collect_deskOf _ (by decide +kernel) (by decide +kernel)]
    decide +kernel
  obtain ⟨hnodup, hredirect, hsource⟩ := outputs_apart hfiles hprofile hsources
  exact ⟨hfiles, hprofile, hsources, hnodup, hredirect "out" (.inr ⟨by decide +kernel, by decide +kernel⟩),
    (hsource _ (.tail _ (.head _)) _ (.head _)).1 rfl⟩

/-- Outputs that meet. With the extension of sources the code of a source replaces it. With a slash in the extension all
    code goes to one file of another directory. In the root, a dot as the extension makes two names of it. -/
theorem outputs_meet :
    ((deskOf ["a.loc"]).WellFormed ∧ Profile.ofText "[build]\noutput-ext = \".loc\"\n" = .ok { outputExt := ".loc" } ∧
      collect (deskOf ["a.loc"]) { outputExt := ".loc" } "a.loc" = .ok [⟨"/w/a.loc", "a.loc", "/w/a.loc"⟩]) ∧
    ((deskOf ["b.loc", "a.loc"]).WellFormed ∧ Profile.ofText "[build]\noutput-ext = \".x/y\"\n" = .ok
      { outputExt := ".x/y" } ∧
      ∃ sources, collect (deskOf ["b.loc", "a.loc"]) { outputExt := ".x/y" } "." = .ok sources ∧
        (redirect { outputExt := ".x/y" } "out" sources).map (·.output) = ["out/y", "out/y"]) ∧
    ((deskOf [".loc", "..loc"]).WellFormed ∧ Profile.ofText "[build]\noutput-ext = \".\"\n" = .ok { outputExt := "." } ∧
      ∃ sources, collect (deskOf [".loc", "..loc"]) { outputExt := "." } "." = .ok sources ∧
        (redirect { outputExt := "." } "/" sources).map (·.output) = ["/", "/"]) := by
  refine ⟨⟨by decide +kernel, by decide +kernel, by decide +kernel⟩, ⟨by decide +kernel, by decide +kernel, ?_⟩,
    by decide +kernel, by decide +kernel, ?_⟩
  · exact ⟨_, collect_deskOf _ (by decide +kernel) (by decide +kernel), by decide +kernel⟩
  · exact ⟨_, collect_deskOf _ (by decide +kernel) (by decide +kernel), by decide +kernel⟩

end SourceFile

end LocLang
