import LocLang.Proofs.File.Writing
import Mathlib.Data.List.Induction

namespace LocLang

open LocLang.Path List

namespace Path

variable {absolute : Bool} {ns : List String}

/-- Whether names lead to a place without detours: first back, but not from the root, then forth. -/
inductive Direct (absolute : Bool) : List String → Prop
  | back (k : Nat) (h : absolute = true → k = 0) : Direct absolute (replicate k "..")
  | forth {ns : List String} {name : String} (h : Direct absolute ns) (hname : IsName name) :
      Direct absolute (ns ++ [name])

namespace Direct

variable {absolute : Bool} {ns : List String} {name : String}

theorem nil : Direct absolute [] :=
  back 0 fun _ => rfl

/-- The last of the names leads back, as all of them, or forth. -/
theorem last_cases (h : Direct absolute (ns ++ [name])) :
    name = ".." ∧ absolute = false ∧ ns = replicate ns.length ".." ∨ IsName name ∧ Direct absolute ns := by
  generalize heq : ns ++ [name] = ms at h
  cases h with
  | back k hk =>
    have hall : ∀ n ∈ ns ++ [name], n = ".." := fun n hn => eq_of_mem_replicate (heq ▸ hn)
    have hlength : ns.length + 1 = k := by simpa using congrArg length heq
    refine .inl ⟨hall name (by simp), ?_, eq_replicate_iff.2 ⟨rfl, fun n hn => hall n (by simp [hn])⟩⟩
    cases absolute with
    | true => exact absurd (hk rfl) (by omega)
    | false => rfl
  | forth h hname =>
    obtain ⟨rfl, heq⟩ := append_inj' heq rfl
    obtain rfl : name = _ := by simpa using heq
    exact .inr ⟨hname, h⟩

theorem init (h : Direct absolute (ns ++ [name])) : Direct absolute ns := by
  rcases h.last_cases with ⟨-, rfl, hns⟩ | ⟨-, h⟩
  · rw [hns]
    exact back _ (by simp)
  · exact h

theorem isPlain (h : Direct absolute ns) : ∀ n ∈ ns, IsPlain n := by
  induction h with
  | back =>
    intro n hn
    rw [eq_of_mem_replicate hn]
    exact isPlain_dots
  | forth _ hname ih => exact forall_mem_append.2 ⟨ih, forall_mem_singleton.2 hname.toIsPlain⟩

theorem step {place : List String} (h : Direct absolute place.reverse) (hname : '/' ∉ name.toList) :
    Direct absolute (Path.step absolute place name).reverse := by
  rcases name_cases hname with rfl | rfl | rfl | hname
  · rwa [step_empty]
  · rwa [step_dot]
  · cases place with
    | nil =>
      cases absolute with
      | true => exact h
      | false => exact back 1 (by simp)
    | cons =>
      rw [reverse_cons] at h
      rcases h.last_cases with ⟨rfl, rfl, hrest⟩ | ⟨hlast, h⟩
      · rw [step_dots_dots, reverse_cons, reverse_cons, hrest, ← replicate_succ', ← replicate_succ']
        exact back _ (by simp)
      · rw [step_dots_cons hlast.ne_dots]
        exact h
  · rw [step_name hname, reverse_cons]
    exact h.forth hname

theorem plainNames (path : String) : Direct (isAbsolute path) (plainNames path) := by
  have hfold : ∀ (ns place : List String), (∀ n ∈ ns, '/' ∉ n.toList) → Direct (isAbsolute path) place.reverse →
      Direct (isAbsolute path) (ns.foldl (Path.step (isAbsolute path)) place).reverse := by
    intro ns
    induction ns with
    | nil => exact fun place _ hplace => hplace
    | cons _ _ ih =>
      intro place hns hplace
      rw [forall_mem_cons] at hns
      exact ih _ hns.2 (hplace.step hns.1)
  exact hfold (names path) [] (fun n hn => not_mem_of_mem_names hn) nil

end Direct


theorem isAbsolute_ofNames_eq (h : ∀ n ∈ ns, IsPlain n) : isAbsolute (ofNames absolute ns) = absolute := by
  cases absolute with
  | true => exact isAbsolute_ofNames ns
  | false =>
    cases ns with
    | nil => decide
    | cons n ns =>
      have hn : IsPlain n := h n mem_cons_self
      have hhead : (joinNames (n :: ns)).toList.head? = n.toList.head? := by
        by_cases hns : ns = []
        · rw [hns, joinNames]
        · rw [joinNames_cons hns, String.toList_append, String.toList_append, append_assoc,
            head?_append_of_ne_nil _ (by simpa using hn.ne_empty)]
      rw [isAbsolute, ofNames, if_neg Bool.false_ne_true, if_neg (by simp), hhead, decide_eq_false_iff_not]
      exact fun hslash => hn.no_slash (mem_of_mem_head? hslash)

/-- The path of what is in a directory that has a name. -/
theorem ofNames_concat (hns : ns ≠ []) (name : String) :
    ofNames absolute (ns ++ [name]) = ofNames absolute ns ++ "/" ++ name := by
  cases absolute with
  | true =>
    rw [ofNames, if_pos rfl, ofNames, if_pos rfl, joinNames_append hns (by simp), joinNames]
    simp only [String.append_assoc]
  | false =>
    rw [ofNames, if_neg Bool.false_ne_true, if_neg (by simp), ofNames, if_neg Bool.false_ne_true, if_neg hns,
      joinNames_append hns (by simp), joinNames]

theorem ofNames_singleton (name : String) : ofNames absolute [name] = if absolute then "/" ++ name else name := by
  cases absolute <;> rfl

theorem length_ofNames_pos (h : ∀ n ∈ ns, IsPlain n) : 0 < (ofNames absolute ns).length := by
  cases ns using reverseRecOn with
  | nil => cases absolute <;> decide
  | append_singleton ns name =>
    have hname : 0 < name.length := by
      rw [← String.length_toList, length_pos_iff]
      simpa using (h name (by simp)).ne_empty
    by_cases hns : ns = []
    · rw [hns, nil_append, ofNames_singleton]
      cases absolute <;> simp <;> omega
    · rw [ofNames_concat hns, String.length_append]
      omega

theorem parentPath?_ofNames {name : String} (h : ∀ n ∈ ns ++ [name], IsPlain n) :
    FileTree.parentPath? (ofNames absolute (ns ++ [name])) = if ns = [] then none else some (ofNames absolute ns) := by
  have hname : IsPlain name := h name (by simp)
  have htrim : trimSlashes name.toList = name.toList := trimSlashes_of_not_mem hname.no_slash
  have hne : name.toList ≠ [] := by simpa using hname.ne_empty
  by_cases hns : ns = []
  · rw [if_pos hns, hns, nil_append, ofNames_singleton]
    cases absolute with
    | true =>
      have hpath : trimSlashes ("/" ++ name).toList = [] ++ '/' :: name.toList := by
        rw [String.toList_append, trimSlashes_append _ (by rwa [htrim]), htrim]
        rfl
      rw [if_pos rfl, FileTree.parentPath?, hpath, upToSlash_append _ hname.no_slash]
      rfl
    | false =>
      rw [if_neg Bool.false_ne_true, FileTree.parentPath?, htrim, upToSlash_of_not_mem hname.no_slash]
      rfl
  · have hplain : ∀ n ∈ ns, IsPlain n := fun n hn => h n (mem_append_left _ hn)
    have hlength : ¬((ofNames absolute ns).toList ++ ['/']).length ≤ 1 := by
      have hpos : 0 < (ofNames absolute ns).length := length_ofNames_pos hplain
      rw [length_append, String.length_toList, length_singleton]
      omega
    have hpath : trimSlashes (ofNames absolute (ns ++ [name])).toList = (ofNames absolute ns).toList ++
        '/' :: name.toList := by
      rw [ofNames_concat hns, String.toList_append, String.toList_append, trimSlashes_append _ (by rwa [htrim]), htrim]
      simp
    rw [if_neg hns, FileTree.parentPath?, hpath, upToSlash_append _ hname.no_slash, if_neg hlength, dropLast_concat,
      String.ofList_toList]

/-- Whether a path leads to a place without detours. -/
def IsDirect (path : String) : Prop :=
  ∃ absolute ns, Direct absolute ns ∧ path = ofNames absolute ns

theorem IsDirect.length_pos {path : String} (h : IsDirect path) : 0 < path.length := by
  obtain ⟨absolute, ns, hns, rfl⟩ := h
  exact length_ofNames_pos hns.isPlain

theorem isDirect_directory (path : String) : IsDirect (directory path) :=
  ⟨_, _, Direct.plainNames (String.ofList (upToSlash path.toList)), rfl⟩

end Path

namespace FileTree

variable {t t' : FileTree} {path : String} {p q : Place}

/-- Whether everything is in a directory, and paths start from one. -/
structure Closed (t : FileTree) : Prop where
  current : t.lookup? t.current = some .directory
  parents : ∀ q, t.lookup? q ≠ none → t.lookup? q.dropLast = some .directory

theorem WellFormed.closed (h : t.WellFormed) : t.Closed := by
  refine ⟨h.current, fun q hq => ?_⟩
  by_cases hnil : q = []
  · rw [hnil]
    rfl
  · rw [lookup?, if_neg hnil, ← Option.isSome_iff_ne_none, Option.isSome_iff_exists] at hq
    obtain ⟨entry, hentry⟩ := hq
    obtain ⟨front, rest, heq, -⟩ := lookup_eq_some_iff.1 hentry
    exact (h.parents (q, entry) (by simp [heq])).2

namespace Closed

theorem of_prefix (h : t.Closed) (hq : q <+: p) (hp : t.lookup? p = some .directory) :
    t.lookup? q = some .directory := by
  induction p using reverseRecOn with
  | nil =>
    rw [prefix_nil.1 hq]
    rfl
  | append_singleton p name ih =>
    rcases prefix_concat_iff.1 hq with rfl | hq
    · exact hp
    · have hparent := h.parents (p ++ [name]) (by simp [hp])
      rw [dropLast_concat] at hparent
      exact ih hq hparent

/-- What a path leads to is in a directory. -/
theorem lookup?_dropLast (h : t.Closed) (hlocate : t.locate path = .ok p) : t.lookup? p.dropLast = some .directory := by
  obtain ⟨-, hvisited, rfl⟩ := locate_eq_ok_iff.1 hlocate
  have hstart : t.lookup? (t.start path).dropLast = some .directory := by
    rw [start]
    split
    · rfl
    · exact h.parents _ (by simp [h.current])
  rw [place]
  generalize t.start path = q at hvisited hstart
  generalize names path = names at hvisited
  induction names generalizing q with
  | nil => exact hstart
  | cons name _ ih =>
    rw [visited, forall_mem_cons] at hvisited
    refine ih (walk q name) ?_ hvisited.2
    have hparent : t.lookup? q.dropLast = some .directory := h.parents q (by simp [hvisited.1])
    rw [walk]
    split
    · exact hparent
    · split
      · exact h.parents _ (by simp [hparent])
      · rw [dropLast_concat]
        exact hvisited.1

theorem put (h : t.Closed) (hlocate : t.locate path = .ok p) (hp : t.lookup? p ≠ some .directory) (entry : FileEntry) :
    (t.put p entry).Closed := by
  have hnil : p ≠ [] := ne_nil_of_lookup? hp
  have hother : ∀ q, t.lookup? q = some .directory → (t.put p entry).lookup? q = some .directory := by
    intro q hq
    rw [lookup?_put hnil, if_neg (by rintro rfl; exact hp hq), hq]
  refine ⟨hother t.current h.current, fun q hq => hother _ ?_⟩
  rw [lookup?_put hnil] at hq
  by_cases hqp : q = p
  · rw [hqp]
    exact h.lookup?_dropLast hlocate
  · rw [if_neg hqp] at hq
    exact h.parents q hq

theorem makeDirectory (h : t.Closed) (path : String) : (t.makeDirectory path).1.Closed := by
  obtain ⟨p, hlocate, hentry, hmake⟩ | ⟨-, e, hmake⟩ := makeDirectory_cases t path
  · rw [hmake]
    exact h.put hlocate (by simp [hentry]) _
  · rwa [hmake]

theorem ensureDirectoriesWith (h : t.Closed) (fuel : Nat) (path : String) :
    (t.ensureDirectoriesWith fuel path).1.Closed :=
  ensureDirectoriesWith_induction (fun _ path h => h.makeDirectory path) h fuel path

theorem ensureDirectories (h : t.Closed) (path : String) : (t.ensureDirectories path).1.Closed :=
  h.ensureDirectoriesWith path.length path

end Closed


theorem walk_empty (q : Place) : walk q "" = q :=
  if_pos (.inl rfl)

theorem walk_dot (q : Place) : walk q "." = q :=
  if_pos (.inr rfl)

theorem walk_dots (q : Place) : walk q ".." = q.dropLast := by
  rw [walk, if_neg (by decide), if_pos rfl]

theorem walk_name {name : String} (h : IsName name) (q : Place) : walk q name = q ++ [name] := by
  rw [walk, if_neg (not_or.2 ⟨h.ne_empty, h.ne_dot⟩), if_neg h.ne_dots]

theorem visited_concat (q : Place) (names : List String) (name : String) :
    visited q (names ++ [name]) = visited q names ++ [names.foldl walk q] := by
  induction names generalizing q with
  | nil => rfl
  | cons _ _ ih => rw [cons_append, visited, ih, visited, cons_append, foldl_cons]

theorem lookup?_makeDirectory (t : FileTree) (path : String) (q : Place) :
    (t.makeDirectory path).1.lookup? q = t.lookup? q ∨ q = t.place path := by
  obtain ⟨p, hlocate, hentry, hmake⟩ | ⟨-, e, hmake⟩ := makeDirectory_cases t path <;> rw [hmake]
  · rw [lookup?_put (ne_nil_of_lookup? (t := t) (by simp [hentry])), ← (locate_eq_ok_iff.1 hlocate).2.2]
    by_cases hq : q = p
    · exact .inr hq
    · exact .inl (if_neg hq)
  · exact .inl rfl

/-- All directories can be made if there is the last one, or if those that lead to it can be made and then it. -/
theorem ensureDirectoriesWith_eq_ok_iff {fuel : Nat} : t.ensureDirectoriesWith (fuel + 1) path = (t', .ok ()) ↔
    t.find path = .ok .directory ∧ t' = t ∨ (∃ cause, t.find path = .error cause) ∧ ∃ t0,
      (match parentPath? path with
        | none => t0 = t
        | some parent => t.ensureDirectoriesWith fuel parent = (t0, .ok ())) ∧
          t0.makeDirectory path = (t', .ok ()) := by
  rw [FileTree.ensureDirectoriesWith]
  split
  · next hfind => simp [hfind, eq_comm]
  · next hfind => simp [hfind]
  · next hfind =>
    split
    · next hparent => simp [hfind, hparent]
    · next parent hparent =>
      split <;> rename_i hensure <;> simp [hfind, hparent, hensure]

/-- Where absolute or relative paths start. -/
def origin (t : FileTree) (absolute : Bool) : Place :=
  if absolute then [] else t.current

section Direct

variable {absolute : Bool} {ns : List String} {name : String}

theorem start_ofNames (h : Path.Direct absolute ns) : t.start (ofNames absolute ns) = t.origin absolute := by
  rw [start, isAbsolute_ofNames_eq h.isPlain, origin]

theorem place_ofNames (h : Path.Direct absolute ns) :
    t.place (ofNames absolute ns) = ns.foldl walk (t.origin absolute) := by
  have hslash : ∀ n ∈ ns, '/' ∉ n.toList := fun n hn => (h.isPlain n hn).no_slash
  rw [place, start_ofNames h]
  cases absolute with
  | true =>
    rw [names_ofNames hslash, foldl_cons, walk_empty]
    split
    · rename_i hns
      rw [hns]
      exact walk_empty _
    · rfl
  | false =>
    rw [names_ofNames_relative hslash]
    split
    · rename_i hns
      rw [hns]
      exact walk_dot _
    · rfl

theorem Closed.origin (h : t.Closed) (absolute : Bool) : t.lookup? (t.origin absolute) = some .directory := by
  cases absolute with
  | true => rfl
  | false => exact h.current

/-- The way back leads through directories. -/
theorem Closed.back (h : t.Closed) (hq : t.lookup? q = some .directory) (k : Nat) :
    (∀ r ∈ visited q (replicate k ".."), t.lookup? r = some .directory) ∧
      t.lookup? ((replicate k "..").foldl walk q) = some .directory := by
  induction k generalizing q with
  | zero => exact ⟨by simp [visited], hq⟩
  | succ _ ih =>
    have hback := ih (h.parents q (by simp [hq]))
    rw [replicate_succ, visited, forall_mem_cons, foldl_cons, walk_dots]
    exact ⟨⟨hq, hback.1⟩, hback.2⟩

theorem Closed.visited (h : t.Closed) (hns : Path.Direct absolute ns)
    (hplace : t.lookup? (ns.foldl walk (t.origin absolute)) ≠ none) :
    ∀ r ∈ visited (t.origin absolute) ns, t.lookup? r = some .directory := by
  induction hns with
  | back k _ => exact (h.back (h.origin absolute) k).1
  | @forth _ _ _ hname ih =>
    rw [foldl_append, foldl_cons, foldl_nil, walk_name hname] at hplace
    have hparent := h.parents _ hplace
    rw [dropLast_concat] at hparent
    rw [visited_concat, forall_mem_append]
    exact ⟨ih (by simp [hparent]), by simpa using hparent⟩

/-- A path without detours can be followed if it leads through directories. -/
theorem Closed.locate_ofNames (h : t.Closed) (hns : Path.Direct absolute ns) (hvalid : IsValid (ofNames absolute ns))
    (hvisited : ∀ r ∈ FileTree.visited (t.origin absolute) ns, t.lookup? r = some .directory) :
    t.locate (ofNames absolute ns) = .ok (t.place (ofNames absolute ns)) := by
  have hslash : ∀ n ∈ ns, '/' ∉ n.toList := fun n hn => (hns.isPlain n hn).no_slash
  have horigin := h.origin absolute
  refine locate_eq_ok_iff.2 ⟨hvalid, ?_, rfl⟩
  rw [start_ofNames hns]
  cases absolute with
  | true =>
    rw [names_ofNames hslash, FileTree.visited, walk_empty, forall_mem_cons]
    refine ⟨horigin, ?_⟩
    split
    · simpa [FileTree.visited] using horigin
    · exact hvisited
  | false =>
    rw [names_ofNames_relative hslash]
    split
    · simpa [FileTree.visited] using horigin
    · exact hvisited

/-- What a direct path leads to is what is at its place. -/
theorem Closed.find_iff (h : t.Closed) (hpath : IsDirect path) {entry : FileEntry} :
    t.find path = .ok entry ↔ IsValid path ∧ t.lookup? (t.place path) = some entry := by
  obtain ⟨absolute, ns, hns, rfl⟩ := hpath
  rw [find_eq_ok_iff]
  constructor
  · rintro ⟨p, hlocate, hentry⟩
    obtain ⟨hvalid, -, rfl⟩ := locate_eq_ok_iff.1 hlocate
    exact ⟨hvalid, hentry⟩
  · rintro ⟨hvalid, hentry⟩
    refine ⟨_, h.locate_ofNames hns hvalid (h.visited hns ?_), hentry⟩
    rw [← place_ofNames hns, hentry]
    simp

/-- What leads to the parent of a direct path leads to its own place or exists anyway; and what does not exist is in its
    parent. -/
theorem Closed.parent (h : t.Closed) (hpath : IsDirect path) {parent : String}
    (hparent : parentPath? path = some parent) :
    IsDirect parent ∧ parent.length < path.length ∧
      (∀ q, q <+: t.place parent → q <+: t.place path ∨ t.lookup? q = some .directory) ∧
      (t.lookup? (t.place path) = none → ¬t.place path <+: t.place parent) := by
  obtain ⟨absolute, ns, hns, rfl⟩ := hpath
  cases ns using reverseRecOn with
  | nil => cases absolute <;> cases hparent
  | append_singleton ns name =>
    have hne : ns ≠ [] := by
      rintro rfl
      rw [parentPath?_ofNames hns.isPlain, if_pos rfl] at hparent
      cases hparent
    rw [parentPath?_ofNames hns.isPlain, if_neg hne] at hparent
    cases hparent
    have hlength : (ofNames absolute ns).length < (ofNames absolute (ns ++ [name])).length := by
      have hslash : "/".length = 1 := rfl
      rw [ofNames_concat hne, String.length_append, String.length_append]
      omega
    refine ⟨⟨absolute, ns, hns.init, rfl⟩, hlength, ?_⟩
    rw [place_ofNames hns, place_ofNames hns.init, foldl_append]
    rcases hns.last_cases with ⟨rfl, rfl, hback⟩ | ⟨hname, -⟩
    · -- On the way back there are directories only.
      have hdirectory := fun k => (h.back (h.origin false) k).2
      rw [hback]
      refine ⟨fun q hq => .inr (h.of_prefix hq (hdirectory _)), fun hnone => ?_⟩
      rw [← foldl_append, ← replicate_succ', hdirectory] at hnone
      cases hnone
    · rw [foldl_cons, foldl_nil, walk_name hname]
      exact ⟨fun q hq => .inl (hq.trans (prefix_append _ _)), fun _ hway => absurd hway.length_le (by simp)⟩

/-- Directories are made only on the way to the last one. -/
theorem Closed.prefix_of_made (h : t.Closed) (hpath : IsDirect path) (fuel : Nat) (hnone : t.lookup? q = none) :
    (t.ensureDirectoriesWith fuel path).1.lookup? q = none ∨ q <+: t.place path := by
  have hmake {t1 : FileTree} {path : String} (hcurrent : t1.current = t.current)
      (hq : t1.lookup? q = none ∨ q <+: t.place path) :
      (t1.makeDirectory path).1.lookup? q = none ∨ q <+: t.place path := by
    rcases lookup?_makeDirectory t1 path q with heq | rfl
    · rwa [heq]
    · rw [place, start, hcurrent]
      exact .inr (prefix_refl _)
  induction fuel generalizing path with
  | zero => exact hmake rfl (.inl hnone)
  | succ fuel ih =>
    rw [FileTree.ensureDirectoriesWith]
    split
    · exact .inl hnone
    · exact .inl hnone
    · split
      · exact hmake rfl (.inl hnone)
      · next parent hparent =>
        obtain ⟨hdirect, -, hway, -⟩ := h.parent hpath hparent
        have hadds := AddsDirectories.ensureDirectoriesWith t fuel parent
        have hq := (ih hdirect).imp_right fun hq => (hway q hq).resolve_right (by simp [hnone])
        split <;> rename_i hensure <;> rw [hensure] at hq hadds
        · exact hq
        · exact hmake hadds.current hq

end Direct

/-- A directory that can be made can be made in a tree with more directories, if nothing is at its place there. -/
theorem KeepsDirectories.makeDirectory (h : KeepsDirectories t t') {t1 : FileTree}
    (hmake : t.makeDirectory path = (t1, .ok ()))
    (hnone : IsValid path → t'.lookup? (t'.place path) = none) :
    ∃ t2, t'.makeDirectory path = (t2, .ok ()) ∧ KeepsDirectories t1 t2 ∧
      ∀ q, t2.lookup? q = some .directory → t'.lookup? q = some .directory ∨ t1.lookup? q = some .directory := by
  obtain ⟨p, hlocate, hentry, hmake1⟩ | ⟨-, e, hmake1⟩ := makeDirectory_cases t path <;> cases hmake.symm.trans hmake1
  have hlocate' := h.locate hlocate
  obtain ⟨p', hlocate1, -, hmake'⟩ | ⟨hexists, -⟩ := makeDirectory_cases t' path
  · obtain rfl := Except.ok.inj (hlocate'.symm.trans hlocate1)
    have hne : p ≠ [] := ne_nil_of_lookup? (t := t) (by simp [hentry])
    refine ⟨_, hmake', ⟨h.current, fun q hq => ?_⟩, fun q hq => ?_⟩ <;> rw [lookup?_put hne] at hq ⊢ <;>
      by_cases heq : q = p <;> simp only [heq, if_true, if_false] at hq ⊢
    · exact h.kept q hq
    · exact .inr trivial
    · exact .inl hq
  · obtain ⟨hvalid, -, rfl⟩ := locate_eq_ok_iff.1 hlocate'
    exact absurd (hnone hvalid) (hexists _ hlocate')

/-- Directories that can be made can be made in a tree with more directories, if no files are in the way there. -/
theorem Closed.ensure_mono (h : t.Closed) (h' : t'.Closed) (hkeeps : KeepsDirectories t t') (hpath : IsDirect path)
    (hfiles : ∀ q, q <+: t.place path → ∀ bytes, t'.lookup? q = some (.file bytes) → t.lookup? q ≠ none)
    {fuel : Nat} (hfuel : path.length ≤ fuel) {t1 : FileTree} (hok : t.ensureDirectoriesWith fuel path = (t1, .ok ())) :
    ∃ t2, t'.ensureDirectoriesWith fuel path = (t2, .ok ()) ∧ KeepsDirectories t1 t2 ∧
      ∀ q, t2.lookup? q = some .directory → t'.lookup? q = some .directory ∨ t1.lookup? q = some .directory := by
  induction fuel generalizing path t1 with
  | zero => exact absurd hpath.length_pos (by omega)
  | succ fuel ih =>
    have hadds := AddsDirectories.ensureDirectoriesWith t (fuel + 1) path
    have hmade {q : Place} := h.prefix_of_made (q := q) hpath (fuel + 1)
    rw [hok] at hadds hmade
    simp only [ensureDirectoriesWith_eq_ok_iff] at hok ⊢
    cases hfind' : t'.find path with
    | ok entry =>
      obtain ⟨hvalid, hentry⟩ := (h'.find_iff hpath).1 hfind'
      rw [hkeeps.place_eq] at hentry
      cases entry with
      | directory =>
        refine ⟨t', .inl ⟨rfl, rfl⟩, ⟨by rw [hadds.current, hkeeps.current], fun q hq => ?_⟩, fun _ => .inl⟩
        rcases hadds.lookup? q with heq | ⟨hnone, -⟩
        · exact hkeeps.kept q (heq ▸ hq)
        · exact h'.of_prefix ((hmade hnone).resolve_left (by simp [hq])) hentry
      | file bytes =>
        obtain ⟨entry, hentry'⟩ := Option.ne_none_iff_exists'.1 (hfiles _ (prefix_refl _) bytes hentry)
        have hfind := (h.find_iff hpath).2 ⟨hvalid, hentry'⟩
        rcases hok with ⟨hfound, -⟩ | ⟨⟨cause, hfound⟩, -⟩ <;> cases hfind.symm.trans hfound
        cases (hkeeps.kept _ hentry').symm.trans hentry
    | error cause =>
      rcases hok with ⟨hfind, -⟩ | ⟨-, t0, hparent, hmake⟩
      · obtain ⟨p, hlocate, hentry⟩ := find_eq_ok_iff.1 hfind
        cases hfind'.symm.trans (find_eq_ok_iff.2 ⟨p, hkeeps.locate hlocate, hkeeps.kept p hentry⟩)
      · have hnone (hvalid : IsValid path) : t'.lookup? (t'.place path) = none := by
          by_contra hsome
          obtain ⟨entry, hentry⟩ := Option.ne_none_iff_exists'.1 hsome
          cases hfind'.symm.trans ((h'.find_iff hpath).2 ⟨hvalid, hentry⟩)
        cases hparentPath : parentPath? path with
        | none =>
          obtain rfl : t0 = t := by simpa [hparentPath] using hparent
          obtain ⟨t2, hmake', hspec⟩ := hkeeps.makeDirectory hmake hnone
          exact ⟨t2, .inr ⟨⟨cause, rfl⟩, t', rfl, hmake'⟩, hspec⟩
        | some parent =>
          simp only [hparentPath] at hparent
          obtain ⟨hdirect, hlength, hway, -⟩ := h.parent hpath hparentPath
          obtain ⟨t0', hensure, hkeeps0, hnew0⟩ := ih hdirect (fun q hq bytes hfile =>
            (hway q hq).elim (fun hq => hfiles q hq bytes hfile) fun hdirectory => by simp [hdirectory])
              (by omega) hparent
          -- Nothing was made at the place of the last directory on the way to the others.
          have hadds' := AddsDirectories.ensureDirectoriesWith t' fuel parent
          have hmade' := h'.prefix_of_made (q := t'.place path) hdirect fuel
          rw [hensure] at hadds' hmade'
          obtain ⟨t2, hmake', hkeeps', hnew⟩ := hkeeps0.makeDirectory hmake fun hvalid => by
            rw [hadds'.keepsDirectories.place_eq]
            exact (hmade' (hnone hvalid)).resolve_right ((h'.parent hpath hparentPath).2.2.2 (hnone hvalid))
          have hadds1 := AddsDirectories.makeDirectory t0 path
          rw [hmake] at hadds1
          exact ⟨t2, .inr ⟨⟨cause, rfl⟩, t0', hensure, hmake'⟩, hkeeps', fun q hq =>
            (hnew q hq).elim (fun hq => (hnew0 q hq).imp_right (hadds1.keepsDirectories.kept q)) .inr⟩

theorem makeDirectories_eq_ok_iff : t.makeDirectories path = .ok t' ↔ t.ensureDirectories path = (t', .ok ()) := by
  rw [makeDirectories]
  cases t.ensureDirectories path with
  | mk _ outcome => cases outcome <;> simp [Except.map]

/-- Whether a file can be created: the directories that lead to it can be made, and it is no directory itself. -/
def CanCreate (t : FileTree) (path : String) : Prop :=
  ∃ t' p, t.makeDirectories (directory path) = .ok t' ∧ t'.locate path = .ok p ∧ t'.lookup? p ≠ some .directory

/-- What can be created can still be created after other things were, unless they are in the way. -/
theorem CanCreate.mono (h : t.Closed) (h' : t'.Closed) (hkeeps : KeepsDirectories t t')
    (hfiles : ∀ q, q <+: t.place (directory path) → ∀ bytes, t'.lookup? q = some (.file bytes) → t.lookup? q ≠ none)
    (hplace : t'.lookup? (t.place path) = some .directory → t.lookup? (t.place path) = some .directory)
    (hcreate : t.CanCreate path) : t'.CanCreate path := by
  obtain ⟨t1, p, hmake, hlocate, hp⟩ := hcreate
  have hensure := makeDirectories_eq_ok_iff.1 hmake
  have hadds := AddsDirectories.ensureDirectories t (directory path)
  rw [hensure] at hadds
  obtain ⟨t2, hensure', hkeeps1, hnew⟩ := h.ensure_mono h' hkeeps (isDirect_directory path) hfiles
      (Nat.le_refl _) hensure
  obtain rfl : p = t.place path := by rw [(locate_eq_ok_iff.1 hlocate).2.2, hadds.keepsDirectories.place_eq]
  refine ⟨t2, _, makeDirectories_eq_ok_iff.2 hensure', hkeeps1.locate hlocate, fun hdirectory => hp ?_⟩
  exact (hnew _ hdirectory).elim (fun hdirectory => hadds.keepsDirectories.kept _ (hplace hdirectory)) id

end FileTree

end LocLang
