import LocLang.Proofs.File.Tree

namespace LocLang

/-- What a lookup finds after another entry was removed. -/
theorem lookup_filter_ne {α β : Type} [BEq α] [LawfulBEq α] [DecidableEq α] {a b : α} (h : b ≠ a) (l : List (α × β)) :
    (l.filter (·.1 ≠ a)).lookup b = l.lookup b := by
  induction l with
  | nil => rfl
  | cons e _ ih =>
    obtain ⟨c, x⟩ := e
    by_cases hc : c = a
    · have hbc : (b == c) = false := by simpa [hc] using h
      rw [List.filter_cons_of_neg (by simpa using hc), ih, List.lookup_cons, hbc]
    · rw [List.filter_cons_of_pos (by simpa using hc), List.lookup_cons, List.lookup_cons, ih]

namespace FileTree

variable {t t' : FileTree} {path : String} {p : Place}

theorem ne_nil_of_lookup? {place : Place} (h : t.lookup? place ≠ some .directory) : place ≠ [] := by
  rintro rfl
  exact h rfl

theorem lookup?_put {place : Place} (hplace : place ≠ []) (entry : FileEntry) (q : Place) :
    (t.put place entry).lookup? q = if q = place then some entry else t.lookup? q := by
  rw [lookup?, lookup?, put]
  by_cases hq : q = place
  · rw [if_pos hq, if_neg (hq ▸ hplace), hq, List.lookup_cons_self]
  · have hne : (q == place) = false := by simpa using hq
    rw [if_neg hq, List.lookup_cons, hne, lookup_filter_ne hq]


def start (t : FileTree) (path : String) : Place :=
  if Path.isAbsolute path then [] else t.current

/-- The place that a path names, whether or not it can be followed there. -/
def place (t : FileTree) (path : String) : Place :=
  (Path.names path).foldl walk (t.start path)

/-- The places that names lead through, without the last one. -/
def visited (q : Place) : List String → List Place
  | [] => []
  | name :: names => q :: visited (walk q name) names

/-- Whether a path and the names in it are not too long, and it can be a path at all. -/
structure IsValid (path : String) : Prop where
  no_null : '\x00' ∉ path.toList
  ne_empty : path ≠ ""
  size : path.utf8ByteSize ≤ maxPathSize
  names : ∀ name ∈ Path.names path, name.utf8ByteSize ≤ maxNameSize

theorem follow_eq_ok_iff {q : Place} {names : List String} :
    t.follow q names = .ok p ↔ (∀ name ∈ names, name.utf8ByteSize ≤ maxNameSize) ∧
      (∀ r ∈ visited q names, t.lookup? r = some .directory) ∧ p = names.foldl walk q := by
  induction names generalizing q with
  | nil => simp [follow, visited, eq_comm]
  | cons name _ ih =>
    rw [follow, visited, List.forall_mem_cons, List.forall_mem_cons, List.foldl_cons]
    cases hentry : t.lookup? q with
    | none => simp
    | some entry =>
      cases entry with
      | file => simp
      | directory =>
        by_cases hsize : maxNameSize < name.utf8ByteSize
        · simp [hsize, Nat.not_le.2 hsize]
        · simp [hsize, ih, Nat.le_of_not_lt hsize]

/-- A path can be followed if it leads through directories. -/
theorem locate_eq_ok_iff :
    t.locate path = .ok p ↔ IsValid path ∧ (∀ r ∈ visited (t.start path) (Path.names path),
      t.lookup? r = some .directory) ∧
      p = t.place path := by
  unfold locate
  by_cases hnull : '\x00' ∈ path.toList
  · simp only [if_pos hnull, reduceCtorEq, false_iff]
    exact fun h => h.1.no_null hnull
  · rw [if_neg hnull]
    by_cases hempty : path = ""
    · simp only [if_pos hempty, reduceCtorEq, false_iff]
      exact fun h => h.1.ne_empty hempty
    · rw [if_neg hempty]
      by_cases hsize : maxPathSize < path.utf8ByteSize
      · simp only [if_pos hsize, reduceCtorEq, false_iff]
        exact fun h => absurd h.1.size (by omega)
      · rw [if_neg hsize, follow_eq_ok_iff]
        constructor
        · rintro ⟨hnames, hvisited, hp⟩
          exact ⟨⟨hnull, hempty, by omega, hnames⟩, hvisited, hp⟩
        · rintro ⟨hvalid, hvisited, hp⟩
          exact ⟨hvalid.names, hvisited, hp⟩

theorem find_eq_ok_iff {entry : FileEntry} : t.find path = .ok entry ↔ ∃ p, t.locate path = .ok p ∧
    t.lookup? p = some entry := by
  rw [find]
  cases t.locate path with
  | error => simp
  | ok p => cases hentry : t.lookup? p <;> simp [hentry]

theorem read_eq_ok_iff {bytes : List UInt8} :
    t.read path = .ok bytes ↔ ∃ p, t.locate path = .ok p ∧ t.lookup? p = some (.file bytes) := by
  rw [← find_eq_ok_iff, read]
  cases t.find path with
  | error => simp
  | ok entry => cases entry <;> simp

/-- A file can be written if its path can be followed and there is no directory. -/
theorem write_eq_ok_iff {bytes : List UInt8} : t.write path bytes = .ok t' ↔
      ∃ p, t.locate path = .ok p ∧ t.lookup? p ≠ some .directory ∧ t' = t.put p (.file bytes) := by
  rw [write]
  cases t.locate path with
  | error => simp
  | ok p =>
    cases hentry : t.lookup? p with
    | none => simp [hentry, eq_comm]
    | some entry => cases entry <;> simp [hentry, eq_comm]

/-- A directory can be made if its path can be followed and there is nothing. -/
theorem makeDirectory_cases (t : FileTree) (path : String) :
    (∃ p, t.locate path = .ok p ∧ t.lookup? p = none ∧ t.makeDirectory path = (t.put p .directory, .ok ())) ∨
      (∀ p, t.locate path = .ok p → t.lookup? p ≠ none) ∧ ∃ e, t.makeDirectory path = (t, .error e) := by
  rw [FileTree.makeDirectory]
  cases t.locate path with
  | error => exact .inr ⟨by simp, _, rfl⟩
  | ok p =>
    cases hentry : t.lookup? p with
    | none => exact .inl ⟨p, rfl, hentry, by simp only [hentry]⟩
    | some => exact .inr ⟨by simp [hentry], ⟨"mkdir", path, .alreadyExists⟩, by simp only [hentry]⟩

/-- What making one directory keeps, making all directories that lead to a place keeps. -/
theorem ensureDirectoriesWith_induction {P : FileTree → Prop} (hmake : ∀ t path, P t → P (t.makeDirectory path).1)
    (ht : P t) (fuel : Nat) (path : String) : P (t.ensureDirectoriesWith fuel path).1 := by
  induction fuel generalizing path with
  | zero => exact hmake t path ht
  | succ _ ih =>
    rw [ensureDirectoriesWith]
    split
    · exact ht
    · exact ht
    · split
      · exact hmake t path ht
      · rename_i parent _
        have hparent := ih parent
        split
        · rename_i t1 e hensure
          rwa [hensure] at hparent
        · rename_i t1 hensure
          rw [hensure] at hparent
          exact hmake t1 path hparent

/-- Whether what is a directory stays one. -/
structure KeepsDirectories (t t' : FileTree) : Prop where
  current : t'.current = t.current
  kept : ∀ q, t.lookup? q = some .directory → t'.lookup? q = some .directory

theorem KeepsDirectories.place_eq (h : KeepsDirectories t t') : t'.place path = t.place path := by
  rw [place, place, start, start, h.current]

/-- A path that can be followed can be followed as long as directories stay. -/
theorem KeepsDirectories.locate (h : KeepsDirectories t t') (hlocate : t.locate path = .ok p) :
    t'.locate path = .ok p := by
  rw [locate_eq_ok_iff] at hlocate ⊢
  obtain ⟨hvalid, hvisited, hp⟩ := hlocate
  refine ⟨hvalid, fun r hr => h.kept r (hvisited r ?_), by rw [h.place_eq, hp]⟩
  rwa [start, h.current] at hr

/-- Whether directories were made where nothing was, and nothing else has changed. -/
structure AddsDirectories (t t' : FileTree) : Prop where
  current : t'.current = t.current
  lookup? : ∀ q, t'.lookup? q = t.lookup? q ∨ t.lookup? q = none ∧ t'.lookup? q = some .directory

namespace AddsDirectories

theorem refl (t : FileTree) : AddsDirectories t t :=
  ⟨rfl, fun _ => .inl rfl⟩

theorem trans {t1 t2 t3 : FileTree} (h : AddsDirectories t1 t2) (h' : AddsDirectories t2 t3) :
    AddsDirectories t1 t3 := by
  refine ⟨h'.current.trans h.current, fun q => ?_⟩
  rcases h.lookup? q with hq | ⟨hnone, hq⟩ <;> rcases h'.lookup? q with hq' | ⟨hnone', hq'⟩
  · exact .inl (hq'.trans hq)
  · exact .inr ⟨hq ▸ hnone', hq'⟩
  · exact .inr ⟨hnone, hq'.trans hq⟩
  · rw [hq] at hnone'
    cases hnone'

theorem keepsDirectories (h : AddsDirectories t t') : KeepsDirectories t t' := by
  refine ⟨h.current, fun q hq => ?_⟩
  rcases h.lookup? q with heq | ⟨hnone, -⟩
  · rw [heq, hq]
  · rw [hq] at hnone
    cases hnone

theorem put (h : t.lookup? p = none) : AddsDirectories t (t.put p .directory) := by
  refine ⟨rfl, fun q => ?_⟩
  rw [lookup?_put (ne_nil_of_lookup? (by rw [h]; simp))]
  by_cases hq : q = p
  · rw [if_pos hq, hq]
    exact .inr ⟨h, rfl⟩
  · rw [if_neg hq]
    exact .inl rfl

theorem makeDirectory (t : FileTree) (path : String) : AddsDirectories t (t.makeDirectory path).1 := by
  obtain ⟨p, -, hentry, hmake⟩ | ⟨-, e, hmake⟩ := makeDirectory_cases t path
  · rw [hmake]
    exact put hentry
  · rw [hmake]
    exact refl t

theorem ensureDirectoriesWith (t : FileTree) (fuel : Nat) (path : String) :
    AddsDirectories t (t.ensureDirectoriesWith fuel path).1 :=
  ensureDirectoriesWith_induction (fun t' path h => h.trans (makeDirectory t' path)) (refl t) fuel path

theorem ensureDirectories (t : FileTree) (path : String) : AddsDirectories t (t.ensureDirectories path).1 :=
  ensureDirectoriesWith t path.length path

end AddsDirectories

end FileTree

end LocLang
