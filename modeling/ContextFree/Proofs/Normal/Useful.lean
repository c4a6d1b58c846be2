import ContextFree.Normal.Useful
import ContextFree.Proofs.Grammar.Closure
import ContextFree.Proofs.Grammar.Construction
import ContextFree.Proofs.Grammar.Reachability
import ContextFree.Proofs.Run

/-!
# Removing useless rules keeps the language

Every rule that a derivation of a word applies has only productive symbols, so dropping the other
rules loses no derivation (`Grammar.Spells.productivePart`). What a derivation from the start symbol
replaces is reachable from it, so the rules for other variables can go, too
(`Grammar.Spells.reachablePart`). Together, the start symbol spells the same words as before
(`Grammar.spells_useful_iff`).
-/

namespace ContextFree.Grammar

variable {g g' : Grammar} {start : Symbol} {form word : List Symbol}

/-- A grammar is valid with a start symbol when that is what its validation finds. -/
theorem validStart_eq_ok_iff : g.validStart = .ok start ↔ g.Valid ∧ g.start = some start := by
  rw [← validate_eq_ok_iff, validStart]
  cases g.validate with
  | error e => simp
  | ok u =>
    cases g.start with
    | none => simp
    | some start => simp

/-- Fewer rules over the same symbols leave a grammar valid. -/
theorem Valid.of_rules (hg : g.Valid) (hk : g'.symbols = g.symbols)
    (ht : g'.terminals = g.terminals) (hs : g'.start = g.start)
    (hr : ∀ rule ∈ g'.rules, rule ∈ g.rules) : g'.Valid := by
  have hknows : g'.knows = g.knows := by
    funext s
    rw [knows, knows, hk]
  have hterm : g'.isTerminal = g.isTerminal := by
    funext s
    rw [isTerminal, isTerminal, ht]
  refine ⟨?_, fun rule h => ?_, fun rule h => ?_⟩
  · rw [hs, hknows, hterm]
    exact hg.start
  · rw [hknows, hterm]
    exact hg.lhs rule (hr rule h)
  · rw [hknows]
    exact hg.rhs rule (hr rule h)

theorem productivePart_valid (hg : g.Valid) : g.productivePart.Valid :=
  hg.of_rules rfl rfl rfl fun _ h => (List.mem_filter.1 h).1

theorem reachablePart_valid (hg : g.Valid) : (g.reachablePart start).Valid :=
  hg.of_rules rfl rfl rfl fun _ h => (List.mem_filter.1 h).1

/-- A rule whose right-hand side spells some word has productive symbols only. -/
theorem mem_productivePart_of_spells {rule : Rule} (hr : rule ∈ g.rules)
    (h : g.Spells rule.rhs word) : rule ∈ g.productivePart.rules := by
  have hrhs : ∀ s ∈ rule.rhs, s ∈ g.productive := h.mem_productive
  have hlhs : rule.lhs ∈ g.productive := lhs_mem_close_markNulling hr hrhs
  refine List.mem_filter.2 ⟨hr, ?_⟩
  simpa using ⟨hlhs, hrhs⟩

/-- Every symbol of a productive rule spells some word. -/
theorem exists_spells_of_mem_productivePart {rule : Rule}
    (hl : ∀ rule ∈ g.rules, g.isTerminal rule.lhs = false)
    (hr : rule ∈ g.productivePart.rules) : ∀ t ∈ rule.rhs, ∃ word, g.Spells [t] word := by
  intro t ht
  have hkeep := (List.mem_filter.1 hr).2
  rw [Bool.and_eq_true, List.all_eq_true] at hkeep
  exact (mem_productive_iff hl).1 (SymbolSet.contains_iff.1 (hkeep.2 t ht))

/-- Rules with a symbol that derives no word are in no derivation of one. -/
theorem Spells.productivePart (h : g.Spells form word) : g.productivePart.Spells form word := by
  induction h with
  | nil => exact .nil
  | ofTerminal ha _ ih => exact .ofTerminal ha ih
  | ofRule hm hv head _ ihHead ihTail =>
    -- The rule derives its part of the word, so none of its symbols derives nothing.
    exact .ofRule (mem_productivePart_of_spells hm head) hv ihHead ihTail

/-- Rules for a variable that is not reachable are in no derivation from reachable symbols. -/
theorem Spells.reachablePart (hg : g.Valid) (hstart : g.knows start = true)
    (h : g.Spells form word) (hf : ∀ s ∈ form, s ∈ g.reachableFrom start) :
    (g.reachablePart start).Spells form word := by
  induction h with
  | nil => exact .nil
  | ofTerminal ha _ ih => exact .ofTerminal ha (ih fun s hs => hf s (by simp [hs]))
  | @ofRule rule rest part word hm hv _ _ ihHead ihTail =>
    have hlhs : rule.lhs ∈ g.reachableFrom start := hf rule.lhs (by simp)
    -- A rule leads on from what is reachable.
    have hrhs : ∀ s ∈ rule.rhs, s ∈ g.reachableFrom start := by
      intro s hs
      rw [mem_reachableFrom_iff hg hstart] at hlhs ⊢
      exact hlhs.tail ⟨rule, hm, rfl, hs⟩
    refine .ofRule (List.mem_filter.2 ⟨hm, ?_⟩) hv (ihHead hrhs)
      (ihTail fun s hs => hf s (by simp [hs]))
    exact SymbolSet.contains_iff.2 hlhs

/-- Removing the useless rules keeps what the start symbol spells. -/
theorem spells_useful_iff (hg : g.Valid) (hs : g.start = some start) :
    (g.productivePart.reachablePart start).Spells [start] word ↔ g.Spells [start] word := by
  constructor
  · intro h
    refine h.mono rfl fun rule hr => ?_
    exact (List.mem_filter.1 (List.mem_filter.1 hr).1).1
  · intro h
    obtain ⟨s, hs', hknows, -⟩ := hg.start
    obtain rfl : s = start := Option.some.inj (hs'.symm.trans hs)
    have hvalid := productivePart_valid hg
    refine h.productivePart.reachablePart hvalid hknows fun t ht => ?_
    rw [mem_reachableFrom_iff hvalid hknows, List.mem_singleton.1 ht]

end ContextFree.Grammar
