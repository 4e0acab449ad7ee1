import LocLang.File.Path
import Mathlib.Data.List.Basic
import Mathlib.Data.List.TakeWhile

namespace LocLang.Path

open List

variable {name path : String} {ns place : List String} {absolute : Bool} {cs : List Char} {directory : String}

section Split

theorem splitNames_ne_nil (cs : List Char) : splitNames cs ≠ [] := by
  cases cs with
  | nil => simp [splitNames]
  | cons =>
    rw [splitNames]
    split
    · simp
    · split <;> simp

theorem splitNames_of_not_mem (h : '/' ∉ cs) : splitNames cs = [cs] := by
  induction cs with
  | nil => rfl
  | cons _ _ ih =>
    rw [mem_cons, not_or] at h
    rw [splitNames, if_neg (Ne.symm h.1), ih h.2]

theorem splitNames_append (cs ds : List Char) : splitNames (cs ++ '/' :: ds) = splitNames cs ++ splitNames ds := by
  induction cs with
  | nil => simp [splitNames]
  | cons c cs ih =>
    rw [cons_append, splitNames, splitNames, ih]
    by_cases hc : c = '/'
    · simp [hc]
    · rw [if_neg hc, if_neg hc]
      cases hsplit : splitNames cs with
      | nil => exact absurd hsplit (splitNames_ne_nil cs)
      | cons => rfl

theorem not_mem_of_mem_splitNames {name : List Char} (h : name ∈ splitNames cs) : '/' ∉ name := by
  induction cs generalizing name with
  | nil =>
    rw [splitNames, mem_singleton] at h
    simp [h]
  | cons c cs ih =>
    rw [splitNames] at h
    by_cases hc : c = '/'
    · rw [if_pos hc] at h
      rcases mem_cons.1 h with rfl | h
      · simp
      · exact ih h
    · rw [if_neg hc] at h
      cases hsplit : splitNames cs with
      | nil => exact absurd hsplit (splitNames_ne_nil cs)
      | cons =>
        rw [hsplit] at h ih
        rcases mem_cons.1 h with rfl | h
        · rw [mem_cons, not_or]
          exact ⟨Ne.symm hc, ih mem_cons_self⟩
        · exact ih (mem_cons_of_mem _ h)

end Split

theorem names_of_not_mem (h : '/' ∉ path.toList) : names path = [path] := by
  rw [names, splitNames_of_not_mem h]
  simp

theorem names_append (path rest : String) : names (path ++ "/" ++ rest) = names path ++ names rest := by
  rw [names, names, names, ← map_append, ← splitNames_append]
  simp

theorem not_mem_of_mem_names (h : name ∈ names path) : '/' ∉ name.toList := by
  obtain ⟨cs, hcs, rfl⟩ := mem_map.1 h
  rw [String.toList_ofList]
  exact not_mem_of_mem_splitNames hcs

/-- Whether a name can stand in a path that is as short as possible. -/
structure IsPlain (name : String) : Prop where
  ne_empty : name ≠ ""
  ne_dot : name ≠ "."
  no_slash : '/' ∉ name.toList

/-- Whether something can have the name. -/
structure IsName (name : String) : Prop extends IsPlain name where
  ne_dots : name ≠ ".."

instance (name : String) : Decidable (IsPlain name) :=
  decidable_of_iff (name ≠ "" ∧ name ≠ "." ∧ '/' ∉ name.toList) ⟨fun ⟨h, h', h''⟩ => ⟨h, h', h''⟩,
    fun ⟨h, h', h''⟩ => ⟨h, h', h''⟩⟩

instance (name : String) : Decidable (IsName name) :=
  decidable_of_iff (IsPlain name ∧ name ≠ "..") ⟨fun ⟨h, h'⟩ => ⟨h, h'⟩, fun ⟨h, h'⟩ => ⟨h, h'⟩⟩

theorem isPlain_dots : IsPlain ".." := by decide

theorem name_cases (h : '/' ∉ name.toList) : name = "" ∨ name = "." ∨ name = ".." ∨ IsName name := by
  by_cases hempty : name = ""
  · exact .inl hempty
  · by_cases hdot : name = "."
    · exact .inr (.inl hdot)
    · by_cases hdots : name = ".."
      · exact .inr (.inr (.inl hdots))
      · exact .inr (.inr (.inr ⟨⟨hempty, hdot, h⟩, hdots⟩))

section Step

variable {absolute : Bool} {place : List String}

theorem step_empty : step absolute place "" = place := by
  unfold step
  rw [if_pos (.inl rfl)]

theorem step_dot : step absolute place "." = place := by
  unfold step
  rw [if_pos (.inr rfl)]

theorem step_name (h : IsName name) : step absolute place name = name :: place := by
  unfold step
  rw [if_neg (not_or.2 ⟨h.ne_empty, h.ne_dot⟩), if_neg h.ne_dots]

theorem step_dots_nil : step absolute [] ".." = if absolute then [] else [".."] :=
  rfl

theorem step_dots_dots : step absolute (".." :: place) ".." = ".." :: ".." :: place :=
  rfl

theorem step_dots_cons {last : String} (h : last ≠ "..") : step absolute (last :: place) ".." = place :=
  if_neg h

theorem isPlain_of_mem_step (hname : '/' ∉ name.toList) (hplace : ∀ n ∈ place, IsPlain n) :
    ∀ n ∈ step absolute place name, IsPlain n := by
  rcases name_cases hname with rfl | rfl | rfl | hname
  · rwa [step_empty]
  · rwa [step_dot]
  · cases place with
    | nil => cases absolute <;> simp [step_dots_nil, isPlain_dots]
    | cons last =>
      by_cases hlast : last = ".."
      · rw [hlast] at hplace ⊢
        rw [step_dots_dots, forall_mem_cons]
        exact ⟨isPlain_dots, hplace⟩
      · rw [step_dots_cons hlast]
        exact (forall_mem_cons.1 hplace).2
  · rw [step_name hname, forall_mem_cons]
    exact ⟨hname.toIsPlain, hplace⟩

theorem isName_of_mem_step (hname : '/' ∉ name.toList) (hplace : ∀ n ∈ place, IsName n) : ∀ n ∈ step true place name,
    IsName n := by
  rcases name_cases hname with rfl | rfl | rfl | hname
  · rwa [step_empty]
  · rwa [step_dot]
  · cases place with
    | nil => simp [step_dots_nil]
    | cons =>
      rw [forall_mem_cons] at hplace
      rw [step_dots_cons hplace.1.ne_dots]
      exact hplace.2
  · rw [step_name hname, forall_mem_cons]
    exact ⟨hname, hplace⟩

end Step

/-- What every step keeps, the names that lead to a place have. -/
theorem forall_mem_plainNames {P : String → Prop}
    (h : ∀ {place : List String} {name : String}, '/' ∉ name.toList → (∀ n ∈ place, P n) →
      ∀ n ∈ step (isAbsolute path) place name, P n) : ∀ n ∈ plainNames path, P n := by
  have hfold : ∀ (ns place : List String), (∀ n ∈ ns, '/' ∉ n.toList) → (∀ n ∈ place, P n) →
      ∀ n ∈ ns.foldl (step (isAbsolute path)) place, P n := by
    intro ns
    induction ns with
    | nil => exact fun place _ hplace => hplace
    | cons _ _ ih =>
      intro place hns hplace
      rw [forall_mem_cons] at hns
      exact ih _ hns.2 (h hns.1 hplace)
  intro n hn
  exact hfold (names path) [] (fun n hn => not_mem_of_mem_names hn) (by simp) n (mem_reverse.1 hn)

theorem isPlain_of_mem_plainNames : ∀ n ∈ plainNames path, IsPlain n :=
  forall_mem_plainNames isPlain_of_mem_step

theorem isName_of_mem_plainNames (h : isAbsolute path = true) : ∀ n ∈ plainNames path, IsName n :=
  forall_mem_plainNames (h.symm ▸ isName_of_mem_step)


theorem joinNames_cons (h : ns ≠ []) : joinNames (name :: ns) = name ++ "/" ++ joinNames ns := by
  cases ns with
  | nil => exact absurd rfl h
  | cons => rfl

theorem names_joinNames (hne : ns ≠ []) (h : ∀ n ∈ ns, '/' ∉ n.toList) : names (joinNames ns) = ns := by
  induction ns with
  | nil => exact absurd rfl hne
  | cons _ ns ih =>
    rw [forall_mem_cons] at h
    by_cases hns : ns = []
    · rw [hns]
      exact names_of_not_mem h.1
    · rw [joinNames_cons hns, names_append, names_of_not_mem h.1, ih hns h.2, singleton_append]

theorem joinNames_append {ms : List String} (hns : ns ≠ []) (hms : ms ≠ []) :
    joinNames (ns ++ ms) = joinNames ns ++ "/" ++ joinNames ms := by
  induction ns with
  | nil => exact absurd rfl hns
  | cons _ ns ih =>
    by_cases hrest : ns = []
    · rw [hrest, singleton_append, joinNames_cons hms, joinNames]
    · rw [cons_append, joinNames_cons (by simp [hrest]), joinNames_cons hrest, ih hrest]
      simp only [String.append_assoc]

theorem names_ofNames (h : ∀ n ∈ ns, '/' ∉ n.toList) : names (ofNames true ns) = "" :: if ns = []
    then [""] else ns := by
  have hslash : names ("/" ++ joinNames ns) = names "" ++ names (joinNames ns) := names_append "" (joinNames ns)
  rw [ofNames, if_pos rfl, hslash]
  by_cases hns : ns = []
  · rw [hns]
    decide
  · rw [names_joinNames hns h, if_neg hns]
    rfl

theorem isAbsolute_ofNames (ns : List String) : isAbsolute (ofNames true ns) = true := by
  simp [isAbsolute, ofNames]

theorem foldl_step_of_isName (h : ∀ n ∈ ns, IsName n) : ns.foldl (step absolute) place = ns.reverse ++ place := by
  induction ns generalizing place with
  | nil => rfl
  | cons _ _ ih =>
    rw [forall_mem_cons] at h
    rw [foldl_cons, step_name h.1, ih h.2, reverse_cons, append_assoc, singleton_append]

theorem plainNames_ofNames (h : ∀ n ∈ ns, IsName n) : plainNames (ofNames true ns) = ns := by
  rw [plainNames, isAbsolute_ofNames, names_ofNames fun n hn => (h n hn).no_slash, foldl_cons, step_empty]
  by_cases hns : ns = []
  · rw [hns]
    decide
  · rw [if_neg hns, foldl_step_of_isName h, append_nil, reverse_reverse]

theorem names_ofNames_relative (h : ∀ n ∈ ns, '/' ∉ n.toList) : names (ofNames false ns) = if ns = [] then
    ["."] else ns := by
  rw [ofNames, if_neg Bool.false_ne_true]
  by_cases hns : ns = []
  · rw [if_pos hns, if_pos hns]
    decide
  · rw [if_neg hns, if_neg hns, names_joinNames hns h]

/-- Places with different names have different paths. -/
theorem ofNames_injective {ms : List String} (hns : ∀ n ∈ ns, IsPlain n) (hms : ∀ m ∈ ms, IsPlain m)
    (h : ofNames absolute ns = ofNames absolute ms) : ns = ms := by
  have hnames := congrArg names h
  cases absolute with
  | true =>
    rw [names_ofNames fun n hn => (hns n hn).no_slash, names_ofNames fun m hm => (hms m hm).no_slash,
      cons.injEq] at hnames
    by_cases hn : ns = [] <;> by_cases hm : ms = [] <;> simp only [hn, hm, if_true, if_false] at hnames ⊢
    · exact absurd rfl (hms "" (hnames.2 ▸ mem_singleton_self _)).ne_empty
    · exact absurd rfl (hns "" (hnames.2 ▸ mem_singleton_self _)).ne_empty
    · exact hnames.2
  | false =>
    rw [names_ofNames_relative fun n hn => (hns n hn).no_slash, names_ofNames_relative fun m hm =>
      (hms m hm).no_slash] at hnames
    by_cases hn : ns = [] <;> by_cases hm : ms = [] <;> simp only [hn, hm, if_true, if_false] at hnames ⊢
    · exact absurd rfl (hms "." (hnames ▸ mem_singleton_self _)).ne_dot
    · exact absurd rfl (hns "." (hnames ▸ mem_singleton_self _)).ne_dot
    · exact hnames


theorem isAbsolute_append (h : directory ≠ "") (path : String) :
    isAbsolute (directory ++ "/" ++ path) = isAbsolute directory := by
  have hne : directory.toList ≠ [] := by simpa using h
  rw [isAbsolute, isAbsolute, String.toList_append, String.toList_append, append_assoc, head?_append_of_ne_nil _ hne]

theorem plainNames_append (h : directory ≠ "") (path : String) : plainNames (directory ++ "/" ++ path) =
      ((names path).foldl (step (isAbsolute directory)) (plainNames directory).reverse).reverse := by
  rw [plainNames, plainNames, names_append, isAbsolute_append h, foldl_append, reverse_reverse]

/-- A name seen from a directory is a step from there. -/
theorem join_name (hname : name ≠ "") (hslash : '/' ∉ name.toList) :
      join directory name = ofNames (isAbsolute directory)
      (step (isAbsolute directory) (plainNames directory).reverse name).reverse := by
  rw [join, if_neg hname]
  by_cases hdirectory : directory = ""
  · have habsolute : isAbsolute name = false := by
      rw [isAbsolute, decide_eq_false_iff_not]
      exact fun h => hslash (mem_of_mem_head? h)
    rw [if_pos hdirectory, clean, plainNames, names_of_not_mem hslash, habsolute, hdirectory]
    rfl
  · rw [if_neg hdirectory, if_neg hname, clean, isAbsolute_append hdirectory, plainNames_append hdirectory,
      names_of_not_mem hslash]
    rfl

theorem join_ofNames (hns : ∀ n ∈ ns, IsName n) (hname : IsName name) :
    join (ofNames true ns) name = ofNames true (ns ++ [name]) := by
  rw [join_name hname.ne_empty hname.no_slash, isAbsolute_ofNames, plainNames_ofNames hns, step_name hname,
    reverse_cons, reverse_reverse]

/-- Two dots lead back, or to `..` where nothing can be gone back. -/
theorem eq_dots_of_step (h : step absolute place ".." = name :: place) : name = ".." := by
  cases place with
  | nil => cases absolute <;> simp_all [step_dots_nil]
  | cons last =>
    by_cases hlast : last = ".."
    · rw [hlast, step_dots_dots, cons.injEq] at h
      exact h.1.symm
    · rw [step_dots_cons hlast] at h
      have hlength := congrArg length h
      simp only [length_cons] at hlength
      omega

theorem root_of_step (h : step absolute place ".." = place) : absolute = true ∧ place = [] := by
  cases place with
  | nil => cases absolute <;> simp_all [step_dots_nil]
  | cons last =>
    by_cases hlast : last = ".."
    · rw [hlast, step_dots_dots] at h
      exact absurd (congrArg length h) (by simp)
    · rw [step_dots_cons hlast] at h
      exact absurd (congrArg length h) (by simp)

/-- Different names lead from a directory to different places, but from the root a dot and two dots lead both back to
    it. -/
theorem step_injective {name' : String} (hname : name ≠ "") (hname' : name' ≠ "") (hslash : '/' ∉ name.toList)
    (hslash' : '/' ∉ name'.toList) (hroot : absolute = true → place = [] → name = "." → name' ≠ "..")
    (hroot' : absolute = true → place = [] → name' = "." → name ≠ "..")
    (h : step absolute place name = step absolute place name') : name = name' := by
  rcases name_cases hslash with rfl | rfl | rfl | hn <;> rcases name_cases hslash' with rfl | rfl | rfl | hn'
  all_goals first | exact absurd rfl hname | exact absurd rfl hname' | rfl | skip
  · rw [step_dot] at h
    obtain ⟨habsolute, hplace⟩ := root_of_step h.symm
    exact absurd rfl (hroot habsolute hplace rfl)
  · rw [step_dot, step_name hn'] at h
    exact absurd (congrArg length h) (by simp)
  · rw [step_dot] at h
    obtain ⟨habsolute, hplace⟩ := root_of_step h
    exact absurd rfl (hroot' habsolute hplace rfl)
  · rw [step_name hn'] at h
    exact (eq_dots_of_step h).symm
  · rw [step_dot, step_name hn] at h
    exact absurd (congrArg length h) (by simp)
  · rw [step_name hn] at h
    exact eq_dots_of_step h.symm
  · rw [step_name hn, step_name hn', cons.injEq] at h
    exact h.1


theorem takeWhile_of_not_mem {name : List Char} (h : '/' ∉ name) (rest : List Char) :
    (name.reverse ++ rest).takeWhile (· ≠ '/') = name.reverse ++ rest.takeWhile (· ≠ '/') := by
  apply takeWhile_append_of_pos
  intro c hc
  rw [decide_eq_true_iff]
  rintro rfl
  exact h (mem_reverse.1 hc)

theorem lastName_of_not_mem {name : List Char} (h : '/' ∉ name) : lastName name = name := by
  have htake := takeWhile_of_not_mem h []
  rw [append_nil] at htake
  rw [lastName, htake, takeWhile_nil, append_nil, reverse_reverse]

theorem lastName_append {name : List Char} (front : List Char) (h : '/' ∉ name) :
    lastName (front ++ '/' :: name) = name := by
  rw [lastName, reverse_append, reverse_cons, append_assoc, takeWhile_of_not_mem h]
  simp

theorem upToSlash_of_not_mem {name : List Char} (h : '/' ∉ name) : upToSlash name = [] := by
  rw [upToSlash, reverse_eq_nil_iff, dropWhile_eq_nil_iff]
  intro c hc
  rw [decide_eq_true_iff]
  rintro rfl
  exact h (mem_reverse.1 hc)

theorem upToSlash_append {name : List Char} (front : List Char) (h : '/' ∉ name) :
    upToSlash (front ++ '/' :: name) = front ++ ['/'] := by
  have hdrop : name.reverse.dropWhile (· ≠ '/') = [] := reverse_eq_nil_iff.1 (upToSlash_of_not_mem h)
  rw [upToSlash, reverse_append, reverse_cons, append_assoc, dropWhile_append, hdrop]
  simp

theorem lastName_suffix (path : List Char) : lastName path <:+ path := by
  rw [← reverse_prefix, lastName, reverse_reverse]
  exact takeWhile_prefix _

/-- The extension of a path is that of its last name. -/
theorem extensionChars_append {name : List Char} (front : List Char) (h : '/' ∉ name) :
    extensionChars (front ++ '/' :: name) = extensionChars name := by
  rw [extensionChars, extensionChars, lastName_append front h, lastName_of_not_mem h]

theorem takeWhile_append_dot_prefix (h : '.' ∈ cs) : cs.takeWhile (· ≠ '.') ++ ['.'] <+: cs := by
  induction cs with
  | nil => cases h
  | cons c _ ih =>
    by_cases hc : c = '.'
    · simp [hc]
    · rw [takeWhile_cons_of_pos (by simpa using hc), cons_append, cons_prefix_cons]
      rcases mem_cons.1 h with h | h
      · exact absurd h.symm hc
      · exact ⟨rfl, ih h⟩

theorem extensionChars_suffix (path : List Char) : extensionChars path <:+ path := by
  refine IsSuffix.trans ?_ (lastName_suffix path)
  rw [extensionChars]
  split
  · rename_i hdot
    rw [← reverse_prefix, reverse_cons, reverse_reverse]
    exact takeWhile_append_dot_prefix (mem_reverse.2 hdot)
  · exact nil_suffix

theorem stemChars_append_extensionChars (path : List Char) : stemChars path ++ extensionChars path = path := by
  obtain ⟨stem, hstem⟩ := extensionChars_suffix path
  have hlength : path.length = stem.length + (extensionChars path).length := by
    rw [← length_append, hstem]
  have htake : stemChars path = stem := by
    have htake := congrArg (take stem.length) hstem
    rw [take_left] at htake
    rw [stemChars, hlength, Nat.add_sub_cancel, ← htake]
  rw [htake, hstem]

theorem trimSlashes_append (front : List Char) {rest : List Char} (h : trimSlashes rest ≠ []) :
    trimSlashes (front ++ rest) = front ++ trimSlashes rest := by
  have hdrop : rest.reverse.dropWhile (· = '/') ≠ [] := fun hnil => h (by rw [trimSlashes, hnil, reverse_nil])
  rw [trimSlashes, trimSlashes, reverse_append, dropWhile_append, if_neg (by simpa using hdrop), reverse_append,
    reverse_reverse]

theorem trimSlashes_ne_nil {c : Char} (hc : c ∈ cs) (hslash : c ≠ '/') : trimSlashes cs ≠ [] := by
  intro hnil
  rw [trimSlashes, reverse_eq_nil_iff, dropWhile_eq_nil_iff] at hnil
  exact hslash (by simpa using hnil c (mem_reverse.2 hc))

theorem trimSlashes_prefix (cs : List Char) : trimSlashes cs <+: cs := by
  rw [← reverse_suffix, trimSlashes, reverse_reverse]
  exact dropWhile_suffix _

theorem trimSlashes_of_not_mem {name : List Char} (h : '/' ∉ name) : trimSlashes name = name := by
  cases hname : name.reverse with
  | nil => rw [reverse_eq_nil_iff.1 hname]; rfl
  | cons c =>
    have hc : c ≠ '/' := by
      rintro rfl
      exact h (mem_reverse.1 (hname ▸ mem_cons_self))
    rw [trimSlashes, hname, dropWhile_cons_of_neg (by simpa using hc), ← hname, reverse_reverse]

/-- The last name of a path that has one after a slash, other slashes following it or not. -/
theorem base_append {front rest : List Char} (hpath : path.toList = front ++ '/' :: rest)
    (hrest : trimSlashes rest ≠ []) (hslash : '/' ∉ trimSlashes rest) :
    base path = String.ofList (trimSlashes rest) := by
  have hne : path ≠ "" := by
    rintro rfl
    simp at hpath
  have htrim : trimSlashes path.toList = front ++ '/' :: trimSlashes rest := by
    rw [hpath, append_cons, trimSlashes_append _ hrest, ← append_cons]
  rw [base, if_neg hne, htrim, if_neg (by simp), lastName_append front hslash]

/-- The text of a directory with the slash before what is in it. -/
def inside (ns : List String) : String :=
  if ns = [] then "/" else ofNames true ns ++ "/"

theorem ofNames_append (ns : List String) (name : String) : ofNames true (ns ++ [name]) = inside ns ++ name := by
  rw [inside, ofNames, if_pos rfl]
  by_cases hns : ns = []
  · rw [hns]
    rfl
  · rw [if_neg hns, joinNames_append hns (by simp), ofNames, if_pos rfl, joinNames]
    simp only [String.append_assoc]

theorem toList_inside (ns : List String) : ∃ front, (inside ns).toList = front ++ ['/'] := by
  rw [inside]
  split
  · exact ⟨[], rfl⟩
  · exact ⟨(ofNames true ns).toList, by simp⟩

theorem extension_inside (ns : List String) (h : '/' ∉ name.toList) :
    extension (inside ns ++ name) = extension name := by
  obtain ⟨front, hfront⟩ := toList_inside ns
  rw [extension, extension, String.toList_append, hfront, append_assoc, singleton_append, extensionChars_append front h]

theorem base_inside (ns : List String) (hslash : '/' ∉ trimSlashes name.toList) (hne : trimSlashes name.toList ≠ []) :
    base (inside ns ++ name) = String.ofList (trimSlashes name.toList) := by
  obtain ⟨front, hfront⟩ := toList_inside ns
  have hpath : (inside ns ++ name).toList = front ++ '/' :: name.toList := by
    rw [String.toList_append, hfront, append_assoc, singleton_append]
  exact base_append hpath hne hslash

def stem (path : String) : String :=
  String.ofList (stemChars path.toList)

theorem withExtension_eq (path ext : String) : withExtension path ext = stem path ++ ext := by
  rw [withExtension, String.ofList_append, String.ofList_toList, stem]

theorem stem_append_extension (path : String) : stem path ++ extension path = path := by
  rw [stem, extension, ← String.ofList_append, stemChars_append_extensionChars, String.ofList_toList]

theorem stem_no_slash (h : '/' ∉ name.toList) : '/' ∉ (stem name).toList := by
  intro hstem
  apply h
  rw [← stem_append_extension name, String.toList_append]
  exact mem_append_left _ hstem

theorem stem_inside (ns : List String) (h : '/' ∉ name.toList) : stem (inside ns ++ name) = inside ns ++ stem name := by
  have hpath := stem_append_extension (inside ns ++ name)
  rw [extension_inside ns h] at hpath
  apply (String.append_left_inj (extension name)).1
  rw [hpath, String.append_assoc, stem_append_extension]

end LocLang.Path
