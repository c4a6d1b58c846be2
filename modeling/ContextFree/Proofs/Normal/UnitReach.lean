import ContextFree.Proofs.Normal.UnitFree
import Mathlib.Logic.Relation

/-!
# What the elimination of unit rules leaves

Unit rules make a graph on the variables, which may have loops and cycles (`Grammar.UnitStep`). The
chains of unit rules that the search finds are the paths of this graph
(`Grammar.exists_unitChain_iff`), so the rules after the elimination are those that a variable gets
from the variables it reaches (`Grammar.mem_eliminateUnits_iff_reaches`).
-/

namespace ContextFree.Grammar

variable {g : Grammar} {s t : Symbol} {rule : Rule}

/-- A unit rule leads from the first symbol to the second one, which is a variable. -/
def UnitStep (g : Grammar) (s t : Symbol) : Prop :=
  (⟨s, [t]⟩ : Rule) ∈ g.rules ∧ g.isTerminal t = false

/-- Unit rules are the steps of the graph. -/
theorem unitStep_iff :
    g.UnitStep s t ↔ ∃ rule ∈ g.rules, rule.lhs = s ∧ g.unitTarget? rule = some t := by
  constructor
  · rintro ⟨hm, ht⟩
    exact ⟨⟨s, [t]⟩, hm, rfl, unitTarget?_eq_some_iff.2 ⟨rfl, ht⟩⟩
  · rintro ⟨⟨lhs, rhs⟩, hm, rfl, htarget⟩
    obtain ⟨rfl, ht⟩ := unitTarget?_eq_some_iff.1 htarget
    exact ⟨hm, ht⟩

/-- Chains of unit rules are the paths of the graph. -/
theorem exists_unitChain_iff :
    (∃ chain, g.UnitChain s chain t) ↔ Relation.ReflTransGen g.UnitStep s t := by
  constructor
  · rintro ⟨chain, h⟩
    induction h with
    | nil => exact .refl
    | snoc _ hm htarget ih => exact ih.tail (unitStep_iff.2 ⟨_, hm, rfl, htarget⟩)
  · intro h
    induction h with
    | refl => exact ⟨[], .nil⟩
    | tail _ hstep ih =>
      obtain ⟨chain, hchain⟩ := ih
      obtain ⟨rule, hm, rfl, htarget⟩ := unitStep_iff.1 hstep
      exact ⟨chain ++ [rule], .snoc hchain hm htarget⟩

/-- What reaches a left-hand side of a valid grammar is one of its variables. -/
theorem mem_variableList_of_reaches (hg : g.Valid) (hr : rule ∈ g.rules)
    (h : Relation.ReflTransGen g.UnitStep s rule.lhs) : s ∈ g.variableList := by
  rcases h.cases_head with rfl | ⟨t, ⟨hm, -⟩, -⟩
  · exact hg.lhs_mem_variableList hr
  · exact hg.lhs_mem_variableList hm

/-- A rule is there after the elimination of unit rules exactly when its left-hand side reaches a
variable that has a rule with the same right-hand side which is not a unit rule. -/
theorem mem_eliminateUnits_iff_reaches (hg : g.Valid) :
    rule ∈ g.eliminateUnits.grammar.rules ↔
      ∃ t, Relation.ReflTransGen g.UnitStep rule.lhs t ∧ (⟨t, rule.rhs⟩ : Rule) ∈ g.rules ∧
        g.isUnitRule ⟨t, rule.rhs⟩ = false := by
  constructor
  · intro hr
    rcases mem_or_exists_of_mem_eliminateUnits hr with
      ⟨hm, hunit⟩ | ⟨-, chain, last, hm, hunit, hchain, hrhs⟩
    · exact ⟨rule.lhs, .refl, hm, hunit⟩
    · rw [← hrhs]
      exact ⟨last.lhs, exists_unitChain_iff.1 ⟨chain, hchain⟩, hm, hunit⟩
  · rintro ⟨t, hreaches, hm, hunit⟩
    obtain ⟨chain, hchain⟩ := exists_unitChain_iff.2 hreaches
    have hvar := mem_variableList_of_reaches hg hm hreaches
    exact (mem_eliminateUnits_iff hvar).2 ⟨chain, ⟨t, rule.rhs⟩, hm, hunit, hchain, rfl⟩

/-- The elimination of unit rules is exact, whatever loops and cycles they make. No unit rule is
left, and every variable yields the words it did before, the empty one included. The rules are those
that a variable gets from the variables it reaches through unit rules, itself included. -/
theorem eliminateUnits_exact (hv : g.validate = .ok ()) :
    (∀ rule ∈ g.eliminateUnits.grammar.rules,
      g.eliminateUnits.grammar.isUnitRule rule = false) ∧
    (∀ s word, g.isTerminal s = false →
      (g.eliminateUnits.grammar.Yields s word ↔ g.Yields s word)) ∧
    ∀ rule, rule ∈ g.eliminateUnits.grammar.rules ↔
      ∃ t, Relation.ReflTransGen g.UnitStep rule.lhs t ∧ (⟨t, rule.rhs⟩ : Rule) ∈ g.rules ∧
        g.isUnitRule ⟨t, rule.rhs⟩ = false := by
  have hg := validate_eq_ok_iff.1 hv
  refine ⟨fun rule hr => ?_, fun s word hs => ?_, fun rule => mem_eliminateUnits_iff_reaches hg⟩
  · rw [isUnitRule_congr isTerminal_eliminateUnits]
    exact isUnitRule_eliminateUnits hr
  · have hs' : g.eliminateUnits.grammar.isTerminal s = false := by
      rw [isTerminal_eliminateUnits, hs]
    rw [yields_iff_spells hs', yields_iff_spells hs, spells_eliminateUnits_iff hg]

/-- The grammar with the rules `S → A`, `A → B`, `B → S`, `B → B`, `A → ε` and `B → a`. Its unit
rules make a cycle through all variables, and a loop at `B`. -/
def circling : Grammar :=
  Grammar.empty
    |>.addVariable (some "S")
    |>.addVariable (some "A")
    |>.addVariable (some "B")
    |>.addTerminal "a"
    |>.setStart ⟨0⟩
    |>.addRule ⟨⟨0⟩, [⟨1⟩]⟩
    |>.addRule ⟨⟨1⟩, [⟨2⟩]⟩
    |>.addRule ⟨⟨2⟩, [⟨0⟩]⟩
    |>.addRule ⟨⟨2⟩, [⟨2⟩]⟩
    |>.addRule ⟨⟨1⟩, []⟩
    |>.addRule ⟨⟨2⟩, [⟨3⟩]⟩

/-- Two steps on the cycle lead from `B` to `A`, so `B` gets the rule `B → ε`, and yields the empty
word as before. -/
theorem eliminateUnits_exact_circling :
    circling.validate = .ok () ∧ circling.UnitStep ⟨2⟩ ⟨2⟩ ∧
      (⟨⟨2⟩, []⟩ : Rule) ∈ circling.eliminateUnits.grammar.rules ∧ circling.Yields ⟨2⟩ [] := by
  have hv : circling.validate = .ok () := by decide +kernel
  obtain ⟨-, hwords, hrules⟩ := eliminateUnits_exact hv
  have hfirst : circling.UnitStep ⟨2⟩ ⟨0⟩ := ⟨by decide +kernel, by decide +kernel⟩
  have hsecond : circling.UnitStep ⟨0⟩ ⟨1⟩ := ⟨by decide +kernel, by decide +kernel⟩
  have hreaches := (Relation.ReflTransGen.single hfirst).tail hsecond
  have hrule : (⟨⟨2⟩, []⟩ : Rule) ∈ circling.eliminateUnits.grammar.rules :=
    (hrules ⟨⟨2⟩, []⟩).2 ⟨⟨1⟩, hreaches, by decide +kernel, by decide +kernel⟩
  refine ⟨hv, ⟨by decide +kernel, by decide +kernel⟩, hrule, ?_⟩
  exact (hwords ⟨2⟩ [] (by decide +kernel)).1 ⟨_, hrule, rfl, .nil⟩

end ContextFree.Grammar
