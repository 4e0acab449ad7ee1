import LocLang.Proofs.Lowering.Supply
import LocLang.Proofs.Parser.Trees

namespace LocLang

/-- Whether no slot is read before it is written: on every way from the entry to an instruction that reads a slot, one
    that writes the same slot comes before, in a block that is passed or earlier in the same block. -/
def IrFunction.WritesFirst (f : IrFunction) : Prop :=
  ∀ b ∈ f.blocks, ∀ before dst slot after, b.insts = before ++ .load dst slot :: after →
    ∀ passed, f.Path (b.label :: passed) →
      (∃ v, .store v slot ∈ before) ∨ ∃ c ∈ f.blocks, c.label ∈ passed ∧ ∃ v, .store v slot ∈ c.insts

theorem Inst.exists_store_of_mem_setBy {insts : List Inst} {slot : Slot} (h : .slot slot ∈ setBy insts) :
    ∃ v, .store v slot ∈ insts := by
  obtain ⟨i, hi, hsets⟩ := List.mem_flatMap.1 h
  obtain ⟨v, rfl⟩ := slot_mem_sets.1 hsets
  exact ⟨v, hi⟩

/-- In finished code every slot is written before it is read, if slots count. -/
theorem Draft.Sound.writesFirst {d : Draft} {homes : Homes} (h : d.Sound true homes) (name : String)
    (result : MachineTy) (params : List IrParam) : IrFunction.WritesFirst ⟨name, result, params, d.finished⟩ := by
  intro b hb before dst slot after heq passed hpath
  rcases List.mem_append.1 (h.needs_subset hb heq List.mem_cons_self) with hknown | hset
  · obtain ⟨c, hc, hlabel, hset⟩ := h.exists_passed hpath hknown
    exact .inr ⟨c, hc, hlabel, Inst.exists_store_of_mem_setBy hset⟩
  · exact .inl (Inst.exists_store_of_mem_setBy hset)

theorem Lower.function_writesFirst {enums : EnumTable} {f : FuncDef Ty} {d d' : Draft} {g : IrFunction}
    (hmodule : IsModule d.scopes) (hbody : f.body.Obeys .parsed) (h : (function enums f).Gives d g d') :
    g.WritesFirst := by
  obtain ⟨s, d1, d2, -, hblock, hclose, rfl, -⟩ := gives_function.1 h
  obtain ⟨homes, hsound⟩ := body_sound (fun _ hblock => hblock) hbody hmodule hblock hclose
  exact hsound.writesFirst _ _ _

namespace Program

/-- In the code of a parsed program without errors, no slot is read before it is written. -/
theorem lower_writesFirst (source : Source) (p : Program Unit) (strict : Bool) (target : Target)
    (hparse : source.parse = .ok p) (herrors : (p.analyze strict).hasErrors = false) :
    ∃ m, (p.analyze strict).lower target = .ok m ∧ ∀ f ∈ m.functions, f.WritesFirst := by
  have ha := accepts_of_hasErrors herrors
  obtain ⟨m, hlower, -⟩ := Lower.program_lowers ha herrors target
  refine ⟨m, hlower, fun g hg => ?_⟩
  obtain ⟨f, hf, d0, d1, hgives, hmodule⟩ := Lower.exists_checked_of_mem hlower hg
  exact Lower.function_writesFirst hmodule (ha.obeys (obeys_of_parse hparse) hf).body hgives

/-- A variable in a loop, a match with a value and an arm that returns. -/
def earlyReturn : Source :=
  .ofText "fn f(x: i32) -> i32 {
  while x < 3 { let y: i32 = match x { n => n }; match y { 1 => { return y; } } }
  return 0;
}"

theorem lower_writesFirst_earlyReturn : ∃ p, earlyReturn.parse = .ok p ∧ (p.analyze false).hasErrors = false ∧
      ∃ m, (p.analyze false).lower {} = .ok m ∧ (∃ f ∈ m.functions, ∃ i ∈ f.insts, i matches .load _ _) ∧
        ∀ f ∈ m.functions, f.WritesFirst := by
  obtain ⟨p, hparse, herrors, hloads⟩ : ∃ p, earlyReturn.parse = .ok p ∧ (p.analyze false).hasErrors = false ∧
      ((p.analyze false).lower {}).toOption.any fun m => ∃ f ∈ m.functions, ∃ i ∈ f.insts, i matches .load _ _ :=
    exists_eq_ok_of_any (by decide +kernel)
  obtain ⟨m, hlower, hloads⟩ := exists_eq_ok_of_any hloads
  obtain ⟨m', hlower', hwrites⟩ := lower_writesFirst earlyReturn p false {} hparse herrors
  obtain rfl : m' = m := Except.ok.inj (hlower'.symm.trans hlower)
  exact ⟨p, hparse, herrors, m', hlower, hloads, hwrites⟩

end Program

end LocLang
