import LocLang.Proofs.Ir.Naming
import LocLang.Proofs.Lowering.Jumps

namespace LocLang

open List

/-- The names of the parameters in code are those of the program, as far as there are types for them. -/
theorem FuncDef.names_irParams {μ : Type} (f : FuncDef μ) (s : Signature) :
    (f.irParams s).map (·.name) = ((f.params.map (·.name)).take s.params.length).map parameterName := by
  have hzip (ps : List Param) (types : List MachineTy) :
      (zipWith (fun p type => (⟨parameterName p.name, type⟩ : IrParam)) ps types).map (·.name) =
        ((ps.map (·.name)).take types.length).map parameterName := by
    induction ps generalizing types with
    | nil => simp
    | cons p _ ih =>
      cases types with
      | nil => rfl
      | cons _ types => exact congrArg (parameterName p.name :: ·) (ih types)
  exact hzip f.params s.params

namespace Draft

variable {d d' : Draft}

/-- Whether code makes no slots, and the variables among the slots are spelled like words. -/
structure Spelled (d : Draft) : Prop where
  code : ∀ i ∈ d.insts, i.slot? = none
  slots : ∀ s ∈ d.slots, s.name.Spelled

/-- Code never makes slots, and the variables have names that the tree declares. -/
theorem Course.spelled {rules : TreeRules} (hrules : ∀ name, rules.name name → IsWord name) {c : Bool} {own : List Mark}
    {edits : List Edit} (h : Course (.of rules) c own edits d d') (hd : d.Spelled) : d'.Spelled := by
  have hslot {d : Draft} (hd : d.Spelled) {s : Slot} (hs : s.name.Spelled) : ∀ t ∈ d.slots ++ [s], t.name.Spelled :=
    forall_mem_append.2 ⟨hd.slots, forall_mem_singleton.2 hs⟩
  induction h with
  | trans _ _ ih ih' => exact ih' (ih hd)
  | @append _ _ d b i isOpen code address =>
    refine ⟨?_, hd.slots⟩
    rw [insts_emit isOpen]
    exact forall_mem_append.2 ⟨hd.code, forall_mem_singleton.2 code⟩
  | «variable» d hname type => exact ⟨hd.code, hslot hd (hrules _ hname)⟩
  | result d n type => exact ⟨hd.code, hslot hd trivial⟩
  | close isOpen reached =>
    refine ⟨fun j hj => hd.code j ?_, hd.slots⟩
    simpa [insts, isOpen, OpenBlock.close] using hj
  | place isClosed inner | fail isClosed n =>
    refine ⟨fun j hj => hd.code j ?_, hd.slots⟩
    simpa [insts, isClosed] using hj
  | inScope inside ih =>
    have hinside := ih ⟨hd.code, hd.slots⟩
    exact ⟨hinside.code, hinside.slots⟩
  | numbered k inside allowed ih => exact ih ⟨hd.code, hd.slots⟩
  | _ => exact ⟨hd.code, hd.slots⟩

/-- In finished code the slots stand for themselves. -/
theorem Spelled.finished (hd : d.Spelled) : ∀ s ∈ (d.finished.flatMap (·.insts)).filterMap (·.slot?),
    s.name.Spelled := by
  intro s hs
  obtain ⟨i, hi, hslot⟩ := mem_filterMap.1 hs
  obtain ⟨b, hb, hi⟩ := mem_flatMap.1 hi
  have hcode {c : IrBlock} (hc : c ∈ d.closed) (hi : i ∈ c.insts) : s.name.Spelled := by
    rw [hd.code i (mem_append_left _ (mem_flatMap.2 ⟨c, hc, hi⟩))] at hslot
    cases hslot
  cases hclosed : d.closed with
  | nil => simp [Draft.finished_of_nil hclosed] at hb
  | cons =>
    rw [Draft.finished_of_cons hclosed] at hb
    rcases mem_cons.1 hb with rfl | hb
    · rcases mem_append.1 hi with hi | hi
      · obtain ⟨slot, hmem, rfl⟩ := mem_map.1 hi
        cases hslot
        exact hd.slots s hmem
      · exact hcode (hclosed ▸ mem_cons_self) hi
    · exact hcode (hclosed ▸ mem_cons_of_mem _ hb) hi

end Draft

namespace Lower

variable {enums : EnumTable} {f : FuncDef Ty} {d d' : Draft} {g : IrFunction}

/-- The variables of a function are spelled like words. -/
theorem function_spelled (hf : f.Obeys .parsed) (h : (function enums f).Gives d g d') :
    ∀ s ∈ g.insts.filterMap (·.slot?), s.name.Spelled := by
  obtain ⟨s, d1, d2, -, hblock, hclose, rfl, -⟩ := gives_function.1 h
  have hstart : (start d ((f.params.map (·.name)).zip (f.irParams s))).Spelled :=
    ⟨by simp [start, Draft.insts], by simp [start]⟩
  obtain ⟨edits, -, hcourse⟩ := (block_built _ f.body hf.body : Built (.of .parsed) false _ _).course hblock
    fun _ _ _ => trivial
  have hbody := hcourse.spelled (fun _ h => h) hstart
  refine Draft.Spelled.finished ?_
  rcases gives_terminateIfOpen.1 hclose with hclose | ⟨-, rfl⟩
  · obtain ⟨b, hb, rfl⟩ := gives_terminate.1 hclose
    exact ⟨fun i hi => hbody.code i (by simpa [Draft.insts, hb, OpenBlock.close] using hi), hbody.slots⟩
  · exact hbody

/-- The names in a function are distinct, and none of them is a number. -/
theorem function_localNames {m : IrModule} (hparams : (f.params.map (·.name)).Nodup) (hf : f.Obeys .parsed)
    (h : (function enums f).Gives d g d') (htyped : g.Typed m) :
    g.localNames.Nodup ∧ ∀ name ∈ g.localNames, ¬IsDecimal name := by
  obtain ⟨s, d1, d2, -, -, -, hg, -⟩ := gives_function.1 h
  have htake := take_sublist s.params.length (f.params.map (·.name))
  refine IrFunction.localNames_spec (hg ▸ f.names_irParams s) (htake.nodup hparams) (fun name hname => ?_) htyped.slots
    (function_spelled hf h) (function_wellFormed h).labels_nodup
  obtain ⟨p, hp, rfl⟩ := mem_map.1 (htake.subset hname)
  exact (hf.params p hp).1

/-- The blocks of a function next to its entry are those of constructs that get their number meanwhile. -/
theorem function_numbers (h : (function enums f).Gives d g d') : d.labels ≤ d'.labels ∧
      ∀ l ∈ g.labels, l ≠ .entry → ∃ n, l.number? = some n ∧ d.labels ≤ n ∧ n < d'.labels := by
  obtain ⟨_, edits, d1, hcourse, hlabels, hmarks⟩ := function_course (S := .of .free) f.body.obeys_free h
    fun _ _ _ _ => trivial
  have hfits := hlabels ▸ hcourse.fits_ways (by simp)
  refine ⟨hfits.le, fun l hl hne => ?_⟩
  have hplace : .place l ∈ g.marks := IrBlock.place_mem_marks.2 hl
  rw [hmarks, mem_cons, mem_filter] at hplace
  obtain ⟨hmem, -⟩ := hplace.resolve_left fun heq => hne (Mark.place.inj heq)
  exact hfits.number (mem_filter.2 ⟨hmem, rfl⟩)

/-- No number of a construct is used in two functions. -/
theorem functions_numbers {fs : List (FuncDef Ty)} {gs : List IrFunction} (h : (functions enums fs).Gives d gs d') :
    d.labels ≤ d'.labels ∧
      (∀ l ∈ gs.flatMap (·.labels), l ≠ .entry → ∃ n, l.number? = some n ∧ d.labels ≤ n ∧ n < d'.labels) ∧
      ((gs.flatMap (·.labels)).filter (· ≠ .entry)).Nodup := by
  induction fs generalizing d gs with
  | nil =>
    obtain ⟨rfl, rfl⟩ := gives_pure.1 h
    exact ⟨Nat.le_refl _, by simp, by simp⟩
  | cons _ _ ih =>
    obtain ⟨g, d1, hfunction, h⟩ := gives_bind.1 h
    obtain ⟨gs, hrest, rfl⟩ := gives_map.1 h
    obtain ⟨hle, hfirst⟩ := function_numbers hfunction
    obtain ⟨hle', hothers, hnodup⟩ := ih hrest
    refine ⟨Nat.le_trans hle hle', fun l hl hne => ?_, ?_⟩
    · rcases mem_append.1 hl with hl | hl
      · obtain ⟨n, hn, hlo, hhi⟩ := hfirst l hl hne
        exact ⟨n, hn, hlo, Nat.lt_of_lt_of_le hhi hle'⟩
      · obtain ⟨n, hn, hlo, hhi⟩ := hothers l hl hne
        exact ⟨n, hn, Nat.le_trans hle hlo, hhi⟩
    · rw [flatMap_cons, filter_append]
      refine nodup_append.2 ⟨(function_wellFormed hfunction).labels_nodup.filter _, hnodup, ?_⟩
      rintro l hl _ hl' rfl
      rw [mem_filter, decide_eq_true_eq] at hl hl'
      obtain ⟨n, hn, -, hhi⟩ := hfirst l hl.1 hl.2
      obtain ⟨n', hn', hlo, -⟩ := hothers l hl'.1 hl'.2
      obtain rfl : n = n' := Option.some.inj (hn.symm.trans hn')
      exact absurd hhi (Nat.not_lt.2 hlo)

theorem declarations_of_lower {a : Analysis} {target : Target} {m : IrModule} (h : a.lower target = .ok m) :
    m.declarations = Declaration.runtime := by
  rw [Analysis.lower] at h
  split at h
  · cases h
  · split at h
    · cases h
    · cases h
      rfl

end Lower

/-- Accepted functions have words for names, and none that is reserved. -/
theorem Analysis.Accepts.name_of_checked {a : Analysis} {p : Program Unit} (ha : a.Accepts p) (hp : p.Obeys .parsed)
    {f : FuncDef Ty} (hf : f ∈ a.checked) : IsWord f.name ∧ f.name ∉ runtimeFunctions :=
  ⟨(ha.obeys hp hf).name, ha.reserved f.erase (ha.erase_eq ▸ mem_map_of_mem hf)⟩

namespace Program

/-- In the code of a parsed program without errors, no two things have the same name. -/
theorem lower_distinctNames (source : Source) (p : Program Unit) (strict : Bool) (target : Target)
    (hparse : source.parse = .ok p) (herrors : (p.analyze strict).hasErrors = false) :
    ∃ m, (p.analyze strict).lower target = .ok m ∧ m.DistinctNames := by
  have ha := accepts_of_hasErrors herrors
  have hparsed := obeys_of_parse hparse
  obtain ⟨m, hlower, htyped, -⟩ := Lower.program_lowers ha herrors target
  have hlocals {g : IrFunction} (hg : g ∈ m.functions) :
      g.localNames.Nodup ∧ ∀ name ∈ g.localNames, ¬IsDecimal name := by
    obtain ⟨f, hf, d0, d1, hgives, -⟩ := Lower.exists_checked_of_mem hlower hg
    exact Lower.function_localNames (ha.checked f hf).params (ha.obeys hparsed hf) hgives (htyped.functions g hg)
  refine ⟨m, hlower, ?_, fun g hg => (hlocals hg).1, fun g hg => (hlocals hg).2, ?_⟩
  · refine IrModule.nodup_globalNames (Lower.declarations_of_lower hlower) htyped.names fun g hg => ?_
    obtain ⟨f, hf, d0, d1, hgives, -⟩ := Lower.exists_checked_of_mem hlower hg
    obtain ⟨s, d2, d3, -, -, -, rfl, -⟩ := Lower.gives_function.1 hgives
    exact ha.name_of_checked hparsed hf
  · obtain ⟨d, hprogram⟩ := Lower.gives_program_of_lower hlower
    obtain ⟨_, d1, -, hfunctions⟩ := Lower.gives_bind.1 hprogram
    exact (Lower.functions_numbers hfunctions).2.2.map fun _ _ => Label.text_injective

/-- A parameter and a variable that are called like a block, in a function that is called like the formats. -/
def entries : Source :=
  .ofText "fn fmt(entry: i32) { let entry: i32 = match entry { é => é }; }
fn g() { if true { print(1); } }"

theorem lower_distinctNames_entries : ∃ p, entries.parse = .ok p ∧ (p.analyze true).hasErrors = false ∧
      ∃ m, (p.analyze true).lower {} = .ok m ∧ m.innerLabels.length = 6 ∧ m.DistinctNames := by
  obtain ⟨p, hparse, herrors, hlabels⟩ : ∃ p, entries.parse = .ok p ∧ (p.analyze true).hasErrors = false ∧
      ((p.analyze true).lower {}).toOption.any fun m => m.innerLabels.length = 6 :=
    exists_eq_ok_of_any (by decide +kernel)
  obtain ⟨m, hlower, hlabels⟩ := exists_eq_ok_of_any hlabels
  obtain ⟨m', hlower', hnames⟩ := lower_distinctNames entries p true {} hparse herrors
  obtain rfl : m' = m := Except.ok.inj (hlower'.symm.trans hlower)
  exact ⟨p, hparse, herrors, m', hlower, hlabels, hnames⟩

end Program

end LocLang
