import ContextFree.Grammar.Form
import ContextFree.Proofs.Derivation.Leftmost

/-!
# Derivations in normal form

A rule is in Chomsky normal form when its right-hand side is one terminal or two variables
(`Grammar.isNormalRule_iff`). In a grammar of such rules a variable yields a terminal in one step,
or it is replaced by two variables that yield the two parts of the word
(`Grammar.yields_iff_of_isNormal`).
-/

namespace ContextFree.Grammar

variable {g : Grammar} {rule : Rule} {word : List Symbol}

/-- The form of a lexical rule. -/
theorem normalRule?_eq_lexical_iff {lhs a : Symbol} :
    g.normalRule? rule = some (.lexical lhs a) ↔ rule = ⟨lhs, [a]⟩ ∧ g.isTerminal a = true := by
  constructor
  · intro h
    obtain rfl := toRule_of_normalRule? h
    refine ⟨rfl, ?_⟩
    simpa [normalRule?, NormalRule.toRule] using h
  · rintro ⟨rfl, ha⟩
    simp [normalRule?, ha]

/-- The form of a binary rule. -/
theorem normalRule?_eq_binary_iff {binary : BinaryRule} :
    g.normalRule? rule = some (.binary binary) ↔
      rule = binary.toRule ∧ g.isTerminal binary.left = false ∧
        g.isTerminal binary.right = false := by
  constructor
  · intro h
    obtain rfl := toRule_of_normalRule? h
    refine ⟨rfl, ?_⟩
    simpa [normalRule?, NormalRule.toRule, BinaryRule.toRule, isVariable] using h
  · rintro ⟨rfl, hb, hc⟩
    simp [normalRule?, BinaryRule.toRule, isVariable, hb, hc]

/-- A rule is in normal form when its right-hand side is a terminal or two variables. -/
theorem isNormalRule_iff :
    g.isNormalRule rule = true ↔
      (∃ a, rule.rhs = [a] ∧ g.isTerminal a = true) ∨
        ∃ b c, rule.rhs = [b, c] ∧ g.isTerminal b = false ∧ g.isTerminal c = false := by
  rw [isNormalRule, Option.isSome_iff_exists]
  constructor
  · rintro ⟨form, h⟩
    cases form with
    | lexical lhs a =>
      obtain ⟨rfl, ha⟩ := normalRule?_eq_lexical_iff.1 h
      exact .inl ⟨a, rfl, ha⟩
    | binary binary =>
      obtain ⟨rfl, hb, hc⟩ := normalRule?_eq_binary_iff.1 h
      exact .inr ⟨_, _, rfl, hb, hc⟩
  · obtain ⟨lhs, rhs⟩ := rule
    rintro (⟨a, rfl, ha⟩ | ⟨b, c, rfl, hb, hc⟩)
    · exact ⟨_, normalRule?_eq_lexical_iff.2 ⟨rfl, ha⟩⟩
    · exact ⟨.binary ⟨lhs, b, c⟩, normalRule?_eq_binary_iff.2 ⟨rfl, hb, hc⟩⟩

/-- Whether a rule is in normal form depends on the terminals alone. -/
theorem isNormalRule_congr {g' : Grammar} (ht : g'.isTerminal = g.isTerminal) :
    g'.isNormalRule rule = g.isNormalRule rule := by
  rw [Bool.eq_iff_iff, isNormalRule_iff, isNormalRule_iff, ht]

/-- A grammar in normal form has no nulling rules. -/
theorem rhs_ne_nil_of_isNormal (hn : g.isNormal = true) : ∀ rule ∈ g.rules, rule.rhs ≠ [] := by
  intro rule hr
  rcases isNormalRule_iff.1 (List.all_eq_true.1 hn rule hr) with ⟨a, ha, -⟩ | ⟨b, c, hbc, -⟩
  · simp [ha]
  · simp [hbc]

/-- In a grammar in normal form, no symbol yields the empty word. -/
theorem Yields.ne_nil {s : Symbol} (h : g.Yields s word) (hn : g.isNormal = true) : word ≠ [] := by
  obtain ⟨rule, hm, -, hspells⟩ := h
  have hne := rhs_ne_nil_of_isNormal hn
  exact hspells.ne_nil hne (hne rule hm)

/-- A single symbol on a right-hand side in normal form is a terminal. -/
theorem isTerminal_of_isNormal (hn : g.isNormal = true) {lhs a : Symbol}
    (hm : ⟨lhs, [a]⟩ ∈ g.rules) : g.isTerminal a = true := by
  rcases isNormalRule_iff.1 (List.all_eq_true.1 hn _ hm) with ⟨a', he, ha⟩ | ⟨b, c, he, -⟩
  · obtain rfl : a = a' := by simpa using he
    exact ha
  · exact absurd he (by simp)

/-- Two symbols on a right-hand side in normal form are variables. -/
theorem isVariable_of_isNormal (hn : g.isNormal = true) {binary : BinaryRule}
    (hm : binary.toRule ∈ g.rules) :
    g.isTerminal binary.left = false ∧ g.isTerminal binary.right = false := by
  rcases isNormalRule_iff.1 (List.all_eq_true.1 hn _ hm) with ⟨a, he, -⟩ | ⟨b, c, he, hb, hc⟩
  · exact absurd he (by simp [BinaryRule.toRule])
  · obtain ⟨rfl, rfl⟩ : binary.left = b ∧ binary.right = c := by simpa [BinaryRule.toRule] using he
    exact ⟨hb, hc⟩

/-- In a grammar in normal form, a symbol yields a terminal by one of its rules, or it is replaced
by two variables which yield the parts of the word. -/
theorem yields_iff_of_isNormal (hn : g.isNormal = true) {s : Symbol} :
    g.Yields s word ↔
      (∃ a, ⟨s, [a]⟩ ∈ g.rules ∧ word = [a]) ∨
        ∃ binary : BinaryRule, binary.toRule ∈ g.rules ∧ binary.lhs = s ∧
          ∃ u v, word = u ++ v ∧ g.Yields binary.left u ∧ g.Yields binary.right v := by
  constructor
  · rintro ⟨⟨lhs, rhs⟩, hm, rfl, h⟩
    rcases isNormalRule_iff.1 (List.all_eq_true.1 hn _ hm) with ⟨a, rfl, ha⟩ | ⟨b, c, rfl, hb, hc⟩
    · have hone : ∀ x ∈ [a], g.isTerminal x = true := by simpa using ha
      obtain ⟨d, hd⟩ := h.exists_derives
      exact .inl ⟨a, hm, (hd.of_terminals hone).2⟩
    · obtain ⟨u, v, rfl, hu, hv⟩ := spells_append_iff.1 (show g.Spells ([b] ++ [c]) word from h)
      exact .inr ⟨⟨lhs, b, c⟩, hm, rfl, u, v, rfl, (yields_iff_spells hb).2 hu,
        (yields_iff_spells hc).2 hv⟩
  · rintro (⟨a, hm, rfl⟩ | ⟨binary, hm, rfl, u, v, rfl, hu, hv⟩)
    · exact ⟨_, hm, rfl, .ofTerminal (isTerminal_of_isNormal hn hm) .nil⟩
    · obtain ⟨hb, hc⟩ := isVariable_of_isNormal hn hm
      exact ⟨_, hm, rfl, ((yields_iff_spells hb).1 hu).append ((yields_iff_spells hc).1 hv)⟩

end ContextFree.Grammar
