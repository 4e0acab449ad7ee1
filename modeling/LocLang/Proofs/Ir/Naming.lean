import LocLang.Ir.Text
import LocLang.Lowering
import LocLang.Proofs.Ir.ControlFlow
import LocLang.Proofs.Parser.Trees
import Mathlib.Data.List.Nodup

namespace LocLang

open List

/-- Whether a text is a decimal number, as are the names of registers. -/
def IsDecimal (text : String) : Prop :=
  text.toList ≠ [] ∧ text.toList.all Char.isDigit

instance (text : String) : Decidable (IsDecimal text) :=
  inferInstanceAs (Decidable (_ ∧ _))

theorem IsDecimal.isDigit {text : String} (h : IsDecimal text) {c : Char} (hc : c ∈ text.toList) : c.isDigit :=
  all_eq_true.1 h.2 c hc

theorem isDecimal_toString (n : Nat) : IsDecimal (toString n) := by
  rw [IsDecimal, Nat.toString_eq_ofList_toDigits, String.toList_ofList, all_eq_true]
  exact ⟨Nat.toDigits_ne_nil, fun c hc => Nat.isDigit_of_mem_toDigits (by decide) (by decide) hc⟩

theorem toString_nat_injective {m n : Nat} (h : toString m = toString n) : m = n := by
  rw [Nat.toString_eq_ofList_toDigits, Nat.toString_eq_ofList_toDigits, String.ofList_inj] at h
  rw [← Nat.ofDigitChars_toDigits (b := 10) (n := m) (by decide) (by decide), h,
    Nat.ofDigitChars_toDigits (by decide) (by decide)]

/-- Whether a text can stand between dots. -/
def IsPart (text : String) : Prop :=
  '.' ∉ text.toList

instance (text : String) : Decidable (IsPart text) :=
  inferInstanceAs (Decidable (¬_))

theorem IsDecimal.isPart {text : String} (h : IsDecimal text) : IsPart text :=
  fun hdot => absurd (h.isDigit hdot) (by decide)

theorem IsWord.isPart {text : String} (h : IsWord text) : IsPart text :=
  h.dot_not_mem

theorem Lexeme.startsWord_of_isDigit {c : Char} (h : c.isDigit) : startsWord c = false := by
  have hrange : 48 ≤ c.toNat ∧ c.toNat ≤ 57 := by simpa [Char.isDigit, UInt32.le_iff_toNat_le] using h
  have halpha : c.isAlpha = false := by
    show (decide (c.val ≥ 'A'.val ∧ c.val ≤ 'Z'.val) || c.val ≥ 'a'.val && c.val ≤ 'z'.val) = false
    simp [UInt32.le_iff_toNat_le]
    omega
  have hne : c ≠ '_' := by
    rintro rfl
    exact absurd h (by decide)
  rw [startsWord, Text.isLetter, if_pos (by omega), halpha, decide_eq_false hne, Bool.or_false]

theorem IsWord.not_isDecimal {text : String} (h : IsWord text) : ¬IsDecimal text := by
  obtain ⟨c, cs, htext, hstart⟩ := h.starts
  intro hdecimal
  rw [Lexeme.startsWord_of_isDigit (hdecimal.isDigit (htext ▸ mem_cons_self))] at hstart
  cases hstart

/-- Parts with dots between them. -/
def dotted (parts : List String) : String :=
  ".".intercalate parts

/-- A dotted text says what its parts are. -/
theorem dotted_injective {parts parts' : List String} (hparts : ∀ p ∈ parts, IsPart p)
    (hparts' : ∀ p ∈ parts', IsPart p) (hne : parts ≠ []) (hne' : parts' ≠ [])
    (h : dotted parts = dotted parts') : parts = parts' := by
  have hsplit {ps : List String} (hps : ∀ p ∈ ps, IsPart p) (hne : ps ≠ []) :
      splitOn '.' (dotted ps).toList = ps.map (·.toList) := by
    rw [dotted, String.toList_intercalate]
    refine splitOn_intercalate '.' (fun l hl => ?_) (by simpa using hne)
    obtain ⟨p, hp, rfl⟩ := mem_map.1 hl
    exact hps p hp
  have hlists : parts.map (·.toList) = parts'.map (·.toList) := by rw [← hsplit hparts hne, h, hsplit hparts' hne']
  exact (map_inj_right fun _ _ => String.toList_inj.1).1 hlists

/-- With a part that is no number, a dotted text is none. -/
theorem not_isDecimal_dotted {p : String} (hp : ¬IsDecimal p) (ps : List String) : ¬IsDecimal (dotted (p :: ps)) := by
  cases ps with
  | nil => exact hp
  | cons q ps =>
    intro h
    have hdot : '.' ∈ (dotted (p :: q :: ps)).toList := by
      rw [dotted, String.toList_intercalate]
      simp [intercalate_cons_cons]
    exact absurd (h.isDigit hdot) (by decide)

/-- Words and the numbers after them can be told apart. -/
theorem eq_of_append_numbers_eq {ws ws' : List String} {ns ns' : List Nat} (hws : ∀ w ∈ ws, ¬IsDecimal w)
    (hws' : ∀ w ∈ ws', ¬IsDecimal w) (h : ws ++ ns.map toString = ws' ++ ns'.map toString) : ws = ws' ∧ ns = ns' := by
  have hnot {w : String} {ws : List String} {ns : List Nat} (hw : ¬IsDecimal w) : ns.map toString ≠ w :: ws := by
    intro heq
    obtain ⟨n, -, rfl⟩ := mem_map.1 (heq ▸ mem_cons_self : w ∈ ns.map toString)
    exact hw (isDecimal_toString n)
  induction ws generalizing ws' with
  | nil =>
    cases ws' with
    | nil => exact ⟨rfl, (map_inj_right fun _ _ => toString_nat_injective).1 h⟩
    | cons w' => exact absurd h (hnot (hws' w' mem_cons_self))
  | cons w _ ih =>
    cases ws' with
    | nil => exact absurd h.symm (hnot (hws w mem_cons_self))
    | cons =>
      obtain ⟨rfl, hrest⟩ := cons.inj h
      obtain ⟨rfl, rfl⟩ := ih (fun v hv => hws v (mem_cons_of_mem _ hv))
        (fun v hv => hws' v (mem_cons_of_mem _ hv)) hrest
      exact ⟨rfl, rfl⟩

namespace Label

/-- What kind of block it is. -/
def words : Label → List String
  | entry => ["entry"]
  | ifThen _ => ["if", "then"]
  | ifElse _ => ["if", "else"]
  | ifEnd _ => ["if", "end"]
  | whileCond _ => ["while", "cond"]
  | whileBody _ => ["while", "body"]
  | whileEnd _ => ["while", "end"]
  | matchTest _ _ => ["match", "test"]
  | matchArm _ _ => ["match", "arm"]
  | matchFail _ => ["match", "fail"]
  | matchEnd _ => ["match", "end"]

/-- The number of the construct that a block belongs to, and the place of an arm. -/
def numbers : Label → List Nat
  | entry => []
  | ifThen n | ifElse n | ifEnd n | whileCond n | whileBody n | whileEnd n | matchFail n | matchEnd n => [n]
  | matchTest n k | matchArm n k => [n, k]

theorem text_eq_dotted (l : Label) : l.text = dotted (l.words ++ l.numbers.map toString) := by
  cases l <;> rfl

theorem eq_of_words_eq {l l' : Label} (hwords : l.words = l'.words) (hnumbers : l.numbers = l'.numbers) : l = l' := by
  cases l <;> cases l' <;> cases hnumbers <;> simp [words] at hwords ⊢

end Label

/-- What has a name in a function. -/
inductive LocalName where
  | param (name : String)
  | slot (name : SlotName)
  | block (label : Label)
deriving DecidableEq, Repr

/-- Whether variables are spelled like words. -/
def SlotName.Spelled : SlotName → Prop
  | named name _ => IsWord name
  | result _ => True

namespace LocalName

def text : LocalName → String
  | param name => parameterName name
  | slot name => name.text
  | block label => label.text

def Spelled : LocalName → Prop
  | param name => IsWord name
  | slot name => name.Spelled
  | block _ => True

def words : LocalName → List String
  | param name => if name = "entry" then ["entry", "arg"] else [name]
  | slot (.named name _) => [name]
  | slot (.result _) => ["match", "result"]
  | block label => label.words

def numbers : LocalName → List Nat
  | param _ => []
  | slot (.named _ n) | slot (.result n) => [n]
  | block label => label.numbers

variable {x y : LocalName}

theorem text_eq_dotted (x : LocalName) : x.text = dotted (x.words ++ x.numbers.map toString) := by
  rcases x with name | name | label
  · rw [text, words, parameterName]
    split <;> rfl
  · cases name <;> rfl
  · exact label.text_eq_dotted

theorem words_ne_nil (x : LocalName) : x.words ≠ [] := by
  rcases x with name | name | label
  · rw [words]
    split <;> exact cons_ne_nil _ _
  · cases name <;> exact cons_ne_nil _ _
  · cases label <;> exact cons_ne_nil _ _

/-- Only an entry has the name of an entry. -/
theorem words_param_ne (name : String) (label : Label) (hnumbers : (param name).numbers = (block label).numbers) :
    (param name).words ≠ (block label).words := by
  cases label with
  | entry =>
    rw [words, words, Label.words]
    split
    · decide
    · next hname => exact fun h => hname (cons.inj h).1
  | _ => cases hnumbers

theorem eq_of_words_eq (hwords : x.words = y.words) (hnumbers : x.numbers = y.numbers) : x = y := by
  rcases x with name | name | label <;> rcases y with name' | name' | label'
  · rw [words, words] at hwords
    split at hwords <;> split at hwords <;> simp_all
  · cases name' <;> cases hnumbers
  · exact absurd hwords (words_param_ne name label' hnumbers)
  · cases name <;> cases hnumbers
  · cases name <;> cases name' <;> simp_all [words, numbers]
  · cases name <;> cases label' <;> cases hnumbers <;> simp [words, Label.words] at hwords
  · exact absurd hwords.symm (words_param_ne name' label hnumbers.symm)
  · cases label <;> cases name' <;> cases hnumbers <;> simp [words, Label.words] at hwords
  · exact congrArg block (Label.eq_of_words_eq hwords hnumbers)

theorem Spelled.words (h : x.Spelled) : ∀ w ∈ x.words, IsPart w ∧ ¬IsDecimal w := by
  have hword {name : String} (hname : IsWord name) : ∀ w ∈ [name], IsPart w ∧ ¬IsDecimal w :=
    fun w hw => mem_singleton.1 hw ▸ ⟨hname.isPart, hname.not_isDecimal⟩
  rcases x with name | name | label
  · rw [LocalName.words]
    split
    · decide
    · exact hword h
  · cases name with
    | named => exact hword h
    | result =>
      rw [LocalName.words]
      decide
  · cases label <;> (rw [LocalName.words, Label.words]; decide)

theorem Spelled.isPart (h : x.Spelled) : ∀ p ∈ x.words ++ x.numbers.map toString, IsPart p := by
  intro p hp
  rcases mem_append.1 hp with hp | hp
  · exact (h.words p hp).1
  · obtain ⟨n, -, rfl⟩ := mem_map.1 hp
    exact (isDecimal_toString n).isPart

/-- The text of a name says what it names. -/
theorem Spelled.eq_of_text_eq (hx : x.Spelled) (hy : y.Spelled) (h : x.text = y.text) : x = y := by
  rw [text_eq_dotted, text_eq_dotted] at h
  have hparts := dotted_injective hx.isPart hy.isPart (by simp [words_ne_nil]) (by simp [words_ne_nil]) h
  obtain ⟨hwords, hnumbers⟩ := eq_of_append_numbers_eq (fun w hw => (hx.words w hw).2)
      (fun w hw => (hy.words w hw).2) hparts
  exact eq_of_words_eq hwords hnumbers

/-- The text of a name is never that of a register. -/
theorem Spelled.not_isDecimal_text (h : x.Spelled) : ¬IsDecimal x.text := by
  obtain ⟨w, ws, hwords⟩ := exists_cons_of_ne_nil x.words_ne_nil
  rw [text_eq_dotted, hwords, cons_append]
  exact not_isDecimal_dotted (h.words w (hwords ▸ mem_cons_self)).2 _

end LocalName

/-- The names in a function: those of its parameters, its slots and its blocks. -/
def IrFunction.localNames (f : IrFunction) : List String :=
  f.params.map (·.name) ++ (f.insts.filterMap (·.slot?)).map (·.name.text) ++ f.labels.map (·.text)

/-- The names in a module: those of the functions that it declares, of those that it defines, and of its formats. -/
def IrModule.globalNames (m : IrModule) : List String :=
  (m.declarations.map (·.name) ++ m.functions.map (·.name)).map ("@" ++ ·) ++ (range m.formats.length).map formatName

/-- The labels of all blocks of a module that are not the first one of a function. -/
def IrModule.innerLabels (m : IrModule) : List Label :=
  (m.functions.flatMap (·.labels)).filter (· ≠ .entry)

/-- Whether no two things in a module have the same name: nothing in the module itself, nothing in one function, where
    numbers are left to registers, and no blocks but entries, of whichever functions. -/
structure IrModule.DistinctNames (m : IrModule) : Prop where
  globals : m.globalNames.Nodup
  locals : ∀ f ∈ m.functions, f.localNames.Nodup
  numbers : ∀ f ∈ m.functions, ∀ name ∈ f.localNames, ¬IsDecimal name
  labels : (m.innerLabels.map (·.text)).Nodup

theorem LocalName.nodup_text {names : List LocalName} (h : names.Nodup) (hspelled : ∀ x ∈ names, x.Spelled) :
    (names.map (·.text)).Nodup :=
  h.map_on fun x hx y hy => (hspelled x hx).eq_of_text_eq (hspelled y hy)

theorem Label.text_injective {l l' : Label} (h : l.text = l'.text) : l = l' :=
  LocalName.block.inj (LocalName.Spelled.eq_of_text_eq (x := .block l) (y := .block l') trivial trivial h)

/-- In a function, names are distinct if those of each kind are and the words of the program are words. -/
theorem IrFunction.localNames_spec {f : IrFunction} {names : List String}
    (hparams : f.params.map (·.name) = names.map parameterName) (hnames : names.Nodup)
    (hwords : ∀ name ∈ names, IsWord name) (hslots : ((f.insts.filterMap (·.slot?)).map (·.name)).Nodup)
    (hspelled : ∀ s ∈ f.insts.filterMap (·.slot?), s.name.Spelled) (hlabels : f.labels.Nodup) :
    f.localNames.Nodup ∧ ∀ name ∈ f.localNames, ¬IsDecimal name := by
  let all : List LocalName :=
    names.map .param ++ (f.insts.filterMap (·.slot?)).map (fun s => .slot s.name) ++ f.labels.map .block
  have htext : f.localNames = all.map (·.text) := by
    simp [all, localNames, hparams, LocalName.text, Function.comp_def]
  have hall : ∀ x ∈ all, x.Spelled := by
    intro x hx
    simp only [all, mem_append, mem_map] at hx
    rcases hx with (⟨name, hname, rfl⟩ | ⟨s, hs, rfl⟩) | ⟨label, -, rfl⟩
    · exact hwords name hname
    · exact hspelled s hs
    · trivial
  have hnodup : all.Nodup := by
    have hslots' : ((f.insts.filterMap (·.slot?)).map fun s => LocalName.slot s.name).Nodup := by
      have h := hslots.map fun _ _ => LocalName.slot.inj
      rwa [map_map] at h
    refine nodup_append.2 ⟨nodup_append.2 ⟨hnames.map fun _ _ => LocalName.param.inj, hslots', ?_⟩,
      hlabels.map fun _ _ => LocalName.block.inj, ?_⟩
    · intro x hx y hy
      obtain ⟨name, -, rfl⟩ := mem_map.1 hx
      obtain ⟨s, -, rfl⟩ := mem_map.1 hy
      exact LocalName.noConfusion
    · intro x hx y hy
      obtain ⟨label, -, rfl⟩ := mem_map.1 hy
      rcases mem_append.1 hx with hx | hx
      · obtain ⟨name, -, rfl⟩ := mem_map.1 hx
        exact LocalName.noConfusion
      · obtain ⟨s, -, rfl⟩ := mem_map.1 hx
        exact LocalName.noConfusion
  rw [htext]
  refine ⟨LocalName.nodup_text hnodup hall, fun name hname => ?_⟩
  obtain ⟨x, hx, rfl⟩ := mem_map.1 hname
  exact (hall x hx).not_isDecimal_text

theorem formatName_injective : Function.Injective formatName :=
  fun _ _ h => toString_nat_injective ((String.append_right_inj _).1 h)

/-- The names of a module are distinct if those of its functions are, which are words and not reserved. -/
theorem IrModule.nodup_globalNames {m : IrModule} (hdeclarations : m.declarations = Declaration.runtime)
    (hfunctions : (m.functions.map (·.name)).Nodup)
    (hnames : ∀ f ∈ m.functions, IsWord f.name ∧ f.name ∉ runtimeFunctions) : m.globalNames.Nodup := by
  have hruntime : m.declarations.map (·.name) = runtimeFunctions := by rw [hdeclarations]; rfl
  have hcallable : (m.declarations.map (·.name) ++ m.functions.map (·.name)).Nodup := by
    rw [hruntime]
    refine nodup_append.2 ⟨by decide, hfunctions, fun name hname other hother heq => ?_⟩
    obtain ⟨f, hf, rfl⟩ := mem_map.1 hother
    exact (hnames f hf).2 (heq ▸ hname)
  have hpart : ∀ name ∈ m.declarations.map (·.name) ++ m.functions.map (·.name), IsPart name := by
    intro name hname
    rw [hruntime] at hname
    rcases mem_append.1 hname with hname | hname
    · exact (by decide : ∀ name ∈ runtimeFunctions, IsPart name) name hname
    · obtain ⟨f, hf, rfl⟩ := mem_map.1 hname
      exact (hnames f hf).1.isPart
  refine nodup_append.2 ⟨hcallable.map fun _ _ => (String.append_right_inj _).1,
    nodup_range.map formatName_injective, fun x hx y hy heq => ?_⟩
  -- The name of a format has a dot.
  obtain ⟨name, hname, rfl⟩ := mem_map.1 hx
  obtain ⟨index, -, rfl⟩ := mem_map.1 hy
  have hlist := congrArg String.toList heq
  rw [formatName, String.toList_append, String.toList_append] at hlist
  have hdot : name.toList = "fmt.".toList ++ (toString index).toList := (cons.inj hlist).2
  exact hpart name hname (hdot ▸ by simp)

end LocLang
