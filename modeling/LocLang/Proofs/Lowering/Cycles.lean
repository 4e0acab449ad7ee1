import Mathlib.Logic.Relation
import LocLang.Proofs.Lowering.Jumps
import LocLang.Proofs.Parser.Steps

namespace LocLang

open List

namespace IrFunction

/-- Whether the block `k` stands before the block `l`. -/
def Before (g : IrFunction) (k l : Label) : Prop :=
  [k, l].Sublist g.labels

/-- Whether the block `k` goes to the block `l`. -/
def Goes (g : IrFunction) (k l : Label) : Prop :=
  ∃ b ∈ g.blocks, b.label = k ∧ l ∈ b.term.targets

instance (g : IrFunction) (k l : Label) : Decidable (g.Goes k l) :=
  inferInstanceAs (Decidable (∃ b ∈ g.blocks, b.label = k ∧ l ∈ b.term.targets))

variable {g : IrFunction} {k l : Label}

theorem before_of_append {first last : List IrBlock} (hblocks : g.blocks = first ++ last)
    (hk : k ∈ first.map (·.label)) (hl : l ∈ last.map (·.label)) : g.Before k l := by
  rw [Before, labels, hblocks, map_append, cons_sublist_iff]
  exact ⟨_, _, rfl, hk, singleton_sublist.2 hl⟩

theorem Before.idxOf_lt (h : g.Before k l) (hnodup : g.labels.Nodup) : g.labels.idxOf k < g.labels.idxOf l := by
  obtain ⟨first, last, hlabels, hk, hl⟩ := cons_sublist_iff.1 h
  rw [hlabels] at hnodup ⊢
  have hfirst : l ∉ first := fun hmem => (disjoint_of_nodup_append hnodup) hmem (singleton_sublist.1 hl)
  rw [idxOf_append_of_mem hk, idxOf_append_of_notMem hfirst]
  exact Nat.lt_of_lt_of_le (idxOf_lt_length_of_mem hk) (Nat.le_add_right _ _)

/-- Code that only goes on never comes back. -/
theorem not_transGen_goes (hnodup : g.labels.Nodup) (hbefore : ∀ k l, g.Goes k l → g.Before k l) (l : Label) :
    ¬Relation.TransGen g.Goes l l := by
  intro hcycle
  have hlt : Relation.TransGen (· < ·) (g.labels.idxOf l) (g.labels.idxOf l) :=
    hcycle.lift _ fun k l h => (hbefore k l h).idxOf_lt hnodup
  rw [Relation.transGen_eq_self (r := (· < · : Nat → Nat → Prop))] at hlt
  exact Nat.lt_irrefl _ hlt

end IrFunction

namespace Lower

variable {enums : EnumTable} {f : FuncDef Ty} {g : IrFunction} {d d' : Draft} {k l : Label}

/-- A block goes on to a later one, or it is in the body of a loop and goes back to the condition. -/
theorem function_goes {rules : TreeRules} (hf : f.body.Obeys rules) (h : (function enums f).Gives d g d')
    (hgoes : g.Goes k l) :
    g.Before k l ∨ rules.loop ∧ ∃ n, l = .whileCond n ∧ (k = .whileBody n ∨ g.Before (.whileBody n) k) ∧
      g.Before k (.whileEnd n) := by
  obtain ⟨b, hb, rfl, hl⟩ := hgoes
  obtain ⟨before, after, hblocks⟩ := append_of_mem hb
  have hthis : g.blocks = (before ++ [b]) ++ after := by
    rw [hblocks]
    simp
  have hlast : b.label ∈ (before ++ [b]).map (·.label) := by simp
  rcases function_lands hf h hblocks hl with hlater | ⟨hloop, n, rfl, -, hbody, hend⟩
  · exact .inl (IrFunction.before_of_append hthis hlast hlater)
  · refine .inr ⟨hloop, n, rfl, ?_, IrFunction.before_of_append hthis hlast hend⟩
    rw [map_append, mem_append] at hbody
    rcases hbody with hbody | hbody
    · exact .inr (IrFunction.before_of_append hblocks hbody (by simp))
    · exact .inl (mem_singleton.1 hbody).symm

end Lower

namespace Program

/-- In the code of every program without errors a block goes only to blocks that stand after it, but for those between
    the start of the body of a loop and the end of that loop, which may go to its condition. So the code of a function
    without loops has no cycles. -/
theorem lower_goesOn (p : Program Unit) (strict : Bool) (target : Target) (h : (p.analyze strict).hasErrors = false) :
    ∃ m, (p.analyze strict).lower target = .ok m ∧
      ∀ g ∈ m.functions, g.labels.Nodup ∧
        (∀ k l, g.Goes k l → g.Before k l ∨
          ∃ n, l = .whileCond n ∧ (k = .whileBody n ∨ g.Before (.whileBody n) k) ∧ g.Before k (.whileEnd n)) ∧
        ∀ f ∈ p.funcs, f.name = g.name → f.body.Obeys .loopless → ∀ l, ¬Relation.TransGen g.Goes l l := by
  have ha := accepts_of_hasErrors h
  obtain ⟨m, hlower, -, -⟩ := Lower.program_lowers ha h target
  refine ⟨m, hlower, fun g hg => ?_⟩
  obtain ⟨f, hf, d0, d1, hgives, -⟩ := Lower.exists_checked_of_mem hlower hg
  have hnodup := (Lower.function_labels hgives).1
  refine ⟨hnodup, fun k l hgoes => ?_, fun source hsource hname hloopless => ?_⟩
  · exact (Lower.function_goes f.body.obeys_free hgives hgoes).imp_right (·.2)
  · obtain ⟨f', hf', rfl⟩ := mem_map.1 (ha.erase_eq ▸ hsource)
    obtain rfl : f' = f := by
      obtain ⟨s, d2, d3, -, -, -, rfl, -⟩ := Lower.gives_function.1 hgives
      exact inj_on_of_nodup_map (Lower.nodup_checked_names ha) hf' hf hname
    have hbody : f'.body.Obeys .loopless := (Block.obeys_map _ _).1 hloopless
    refine IrFunction.not_transGen_goes hnodup fun k l hgoes => ?_
    exact (Lower.function_goes hbody hgives hgoes).resolve_right fun hback => hback.1

/-- A match in the body of a loop, and a function without loops. -/
def onceAround : Source :=
  .ofText "fn f(x: i32) {
  while x > 0 { match x { 1 => g(true), n => { while false {} } } }
}
fn g(b: bool) { if b { print(1); } }"

theorem lower_goesOn_onceAround : ∃ p, onceAround.parse = .ok p ∧ (p.analyze true).hasErrors = false ∧
      (∃ f ∈ p.funcs, f.name = "g" ∧ f.body.Obeys .loopless) ∧
      ∃ m, (p.analyze true).lower {} = .ok m ∧ (∃ g ∈ m.functions, g.Goes (.matchEnd 1) (.whileCond 0)) ∧
        ∃ g ∈ m.functions, g.name = "g" ∧ g.Goes .entry (.ifThen 3) ∧ ∀ l, ¬Relation.TransGen g.Goes l l := by
  obtain ⟨p, hparse, herrors, hfuncs, hgoes⟩ : ∃ p, onceAround.parse = .ok p ∧ (p.analyze true).hasErrors = false ∧
      (∃ f ∈ p.funcs, f.name = "g" ∧ f.body.Obeys .loopless) ∧
      ((p.analyze true).lower {}).toOption.any fun m => (∃ g ∈ m.functions, g.Goes (.matchEnd 1) (.whileCond 0)) ∧
        ∃ g ∈ m.functions, g.name = "g" ∧ g.Goes .entry (.ifThen 3) :=
    exists_eq_ok_of_any (by decide +kernel)
  obtain ⟨m, hlower, hback, g, hg, hname, hthen⟩ := exists_eq_ok_of_any hgoes
  obtain ⟨m', hlower', hfunctions⟩ := lower_goesOn p true {} herrors
  obtain rfl : m' = m := Except.ok.inj (hlower'.symm.trans hlower)
  obtain ⟨f, hf, hfname, hloopless⟩ := hfuncs
  refine ⟨p, hparse, herrors, ⟨f, hf, hfname, hloopless⟩, m', hlower, hback, g, hg, hname, hthen, ?_⟩
  exact (hfunctions g hg).2.2 f hf (hfname.trans hname.symm) hloopless

end Program

end LocLang
