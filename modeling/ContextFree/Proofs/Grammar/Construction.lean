import ContextFree.Grammar.Builder
import ContextFree.Grammar.Validity
import ContextFree.Proofs.Symbol.Table

/-!
# Grammars made step by step

`Grammar.Built` holds of the grammars that the operations make, in any order and number, from the
empty one. Each operation keeps the rules distinct and makes terminals of its own symbols only
(`Grammar.WellFormed`), so both hold of every grammar that is built (`Grammar.Built.wellFormed`).
-/

namespace ContextFree

namespace Grammar

/-- The grammars that can be made from the empty one by the operations on grammars. -/
inductive Built : Grammar → Prop where
  /-- The empty grammar. -/
  | empty : Built .empty
  /-- Dropping all rules, which is also how a stage begins its own grammar. -/
  | withoutRules {g : Grammar} (h : Built g) : Built g.withoutRules
  /-- Making a variable, with or without a name. -/
  | addVariable {g : Grammar} (name : Option String) (h : Built g) : Built (g.addVariable name)
  /-- Making several variables at once. -/
  | addVariables {g : Grammar} (names : List (Option String)) (h : Built g) :
      Built (g.addVariables names).2
  /-- Making a terminal. -/
  | addTerminal {g : Grammar} (name : String) (h : Built g) : Built (g.addTerminal name)
  /-- Naming the start symbol, whatever symbol it is. -/
  | setStart {g : Grammar} (start : Symbol) (h : Built g) : Built (g.setStart start)
  /-- Adding a rule over any symbols. -/
  | addRule {g : Grammar} (rule : Rule) (h : Built g) : Built (g.addRule rule)
  /-- Keeping some of the rules. -/
  | retainIdx {g : Grammar} (keep : Nat → Rule → Bool) (h : Built g) : Built (g.retainIdx keep)

/-- A rule that is there changes nothing; any other is put at the end. -/
theorem addRule_eq (g : Grammar) (rule : Rule) :
    g.addRule rule = if rule ∈ g.rules then g else { g with rules := g.rules ++ [rule] } := by
  unfold addRule addRule? contains
  by_cases h : rule ∈ g.rules
  · rw [if_pos h, if_pos (List.contains_iff_mem.2 h)]
    rfl
  · rw [if_neg h, if_neg fun hc => h (List.contains_iff_mem.1 hc)]
    rfl

/-- A builder's next right-hand side leaves a grammar that is built. -/
theorem Built.rhs {b b' : RuleBuilder} {symbols : List Symbol} (hb : b.grammar.Built)
    (h : b.rhs symbols = .ok b') : b'.grammar.Built := by
  unfold RuleBuilder.rhs at h
  split at h
  · exact absurd h (by simp)
  · next lhs _ =>
    obtain rfl := Except.ok.inj h
    exact hb.addRule ⟨lhs, symbols⟩

/-- What every operation keeps: the rules are distinct, and terminals are symbols of the grammar. -/
structure WellFormed (g : Grammar) : Prop where
  /-- No rule is there twice. -/
  nodup : g.rules.Nodup
  /-- The grammar made its terminals. -/
  terminals : ∀ s, g.isTerminal s = true → s.id < g.symbols.size

variable {g : Grammar}

theorem isTerminal_iff {s : Symbol} : g.isTerminal s = true ↔ s ∈ g.terminals :=
  SymbolSet.contains_iff

theorem knows_iff {s : Symbol} : g.knows s = true ↔ s.id < g.symbols.size := by
  simp [knows, SymbolTable.knows]

/-- More symbols and fewer rules over the same terminals leave a grammar well-formed. -/
theorem WellFormed.of_le {g' : Grammar} (h : g.WellFormed) (hr : g'.rules.Sublist g.rules)
    (ht : g'.terminals = g.terminals) (hs : g.symbols.size ≤ g'.symbols.size) : g'.WellFormed := by
  refine ⟨h.nodup.sublist hr, fun s hterm => ?_⟩
  rw [isTerminal_iff, ht] at hterm
  have hlt := h.terminals s (isTerminal_iff.2 hterm)
  omega

/-- A new terminal is a symbol of the grammar, as the ones before it are. -/
theorem WellFormed.addTerminal (h : g.WellFormed) (name : String) :
    (g.addTerminal name).WellFormed := by
  refine ⟨h.nodup, fun s hterm => ?_⟩
  have hsize : (g.addTerminal name).symbols.size = g.symbols.size + 1 := SymbolTable.size_add ..
  rw [hsize]
  rcases SymbolSet.mem_insert.1 (isTerminal_iff.1 hterm) with rfl | hold
  · exact Nat.lt_succ_self _
  · have hlt := h.terminals s (isTerminal_iff.2 hold)
    omega

/-- A rule is added only once, and adds no terminal. -/
theorem WellFormed.addRule (h : g.WellFormed) (rule : Rule) : (g.addRule rule).WellFormed := by
  refine ⟨nodup_addRule rule h.nodup, fun s hterm => ?_⟩
  rw [isTerminal_iff, terminals_addRule] at hterm
  rw [symbols_addRule]
  exact h.terminals s (isTerminal_iff.2 hterm)

/-- The rules kept are some of the rules, in order. -/
theorem sublist_retainIdx (keep : Nat → Rule → Bool) :
    (g.retainIdx keep).rules.Sublist g.rules := by
  -- Numbering the rules and dropping the numbers again changes nothing.
  have hkept : (g.retainIdx keep).rules.Sublist (g.rules.zipIdx.map (·.1)) :=
    List.filter_sublist.map _
  rwa [List.zipIdx_map_fst] at hkept

/-- Every grammar that is built has distinct rules, and terminals among its symbols. -/
theorem Built.wellFormed (h : g.Built) : g.WellFormed := by
  induction h with
  | empty =>
    refine ⟨List.nodup_nil, fun s hs => ?_⟩
    exact absurd (isTerminal_iff.1 hs) SymbolSet.not_mem_empty
  | withoutRules _ ih => exact ih.of_le (List.nil_sublist _) rfl (Nat.le_refl _)
  | addVariable name _ ih =>
    refine ih.of_le (.refl _) rfl ?_
    rw [Grammar.addVariable, SymbolTable.size_add]
    omega
  | addVariables names _ ih =>
    refine ih.of_le (.refl _) rfl ?_
    rw [Grammar.addVariables, SymbolTable.size_addAll]
    omega
  | addTerminal name _ ih => exact ih.addTerminal name
  | setStart start _ ih => exact ih.of_le (.refl _) rfl (Nat.le_refl _)
  | addRule rule _ ih => exact ih.addRule rule
  | retainIdx keep _ ih => exact ih.of_le (sublist_retainIdx keep) rfl (Nat.le_refl _)

end Grammar

end ContextFree
